import Lxos.Kernel.Safe

/-! Each system call keeps the table of open files, the invariant of the file
system and, `exec` apart, the address space. -/
namespace Lxos.Kernel
open Lxos.Bytes Lxos.Fs Lxos.Outcome

section calls
variable {Inv : List Handle → FsState → Prop} {k : State} {f : FileId} {fd : Fin nofile}

theorem permitted_of_tolerated {e : Fault} (tolerated : Tolerated e) : Permitted k e := by
  rcases tolerated with rfl | rfl <;> exact ⟨by decide,fun _ => by decide⟩

/-- What `sys_open` does to the file system: it fails, or it opens an inode that it holds. -/
theorem Guard.openPath (guard : Guard Inv) {hs : List Handle} {m : Mode} (inv : Inv hs k.fs) (room : hs.length < 48)
    (here : (k.proc.cwd,m) ∈ hs) (path : List Byte) (omode : Nat) : Meets Tolerated (openPath k path omode) (fun r =>
      (∃ fs, r = (-1,{ k with fs := fs }) ∧ Inv hs fs) ∨
      ∃ fs ip m, r = openFile { k with fs := fs } ip omode ∧ Inv ((ip,m) :: hs) fs ∧ m ≠ .cwd ∧
        ((omode.testBit 0 || omode.testBit 1) = true → m = .write)) := by
  unfold Kernel.openPath
  split
  · rcases (guard.create inv room here path (by decide : tFile ≠ 0) (by decide) 0 0).cases with
      ⟨e,fail,tolerated⟩ | ⟨⟨_ | ip,fs⟩,ok,inv⟩
    · rw [fail]
      exact tolerated
    · rw [ok]
      exact Or.inl ⟨fs,rfl,inv⟩
    · rw [ok]
      exact Or.inr ⟨fs,ip,.write,rfl,inv,by decide,fun _ => rfl⟩
  · rcases (guard.namei inv room here path).cases with ⟨e,fail,tolerated⟩ | ⟨⟨_ | ip,fs⟩,ok,inv⟩
    · rw [fail]
      exact tolerated
    · rw [ok]
      exact Or.inl ⟨fs,rfl,inv⟩
    · rw [ok]
      have locked := guard.lock inv List.mem_cons_self
      have valid := ilock_valid fs ip
      dsimp only at locked valid ⊢
      generalize ilock fs ip = fs1 at locked valid ⊢
      split
      · exact Or.inl ⟨_,rfl,guard.unlockput locked⟩
      · rename_i reading
        rcases eq_or_ne omode 0 with rfl | some_bit
        · exact Or.inr ⟨fs1,ip,.read,rfl,locked,by decide,by simp⟩
        · exact Or.inr ⟨fs1,ip,.write,rfl,guard.grant locked valid fun dir => reading ⟨dir,some_bit⟩,by decide,fun _ => rfl⟩

theorem Safe.openPath (guard : Guard Inv) (safe : Safe Inv k) (path : List Byte) (omode : Nat) :
    Meets (Permitted k) (openPath k path omode) (fun r => Safe Inv r.2 ∧ Remains k r.2) := by
  rcases (guard.openPath safe.inv safe.room List.mem_cons_self path omode).cases with
    ⟨e,fail,tolerated⟩ | ⟨r,ok,⟨fs,rfl,inv⟩ | ⟨fs,ip,m,rfl,inv,given,writable⟩⟩
  · rw [fail]
    exact permitted_of_tolerated tolerated
  · rw [ok]
    exact ⟨⟨safe.table,inv⟩,Remains.keep k _ _ _⟩
  · rw [ok]
    have opening : Safe Inv (Kernel.openFile { k with fs := fs } ip omode).2 ∧
        Remains { k with fs := fs } (Kernel.openFile { k with fs := fs } ip omode).2 :=
      @Safe.openFile _ { k with fs := fs } _ _ guard safe.table inv given _ writable
    exact ⟨opening.1,(Remains.keep k _ _ _).trans opening.2⟩

theorem Safe.sysOpen (guard : Guard Inv) (safe : Safe Inv k) :
    Meets (Permitted k) (sysOpen k) (fun r => Safe Inv r.2 ∧ Remains k r.2) := by
  unfold Kernel.sysOpen
  rcases (argstr_accessed k 0).cases with ⟨e,fail,permitted⟩ | ⟨⟨_ | ⟨addr,len⟩,k1⟩,ok,first,_⟩
  · rw [fail]
    exact permitted
  · rw [ok]
    exact ⟨safe.accessed first,first.remains⟩
  · rw [ok]
    rcases (argint_accessed k1 1).cases with ⟨e,fail,permitted⟩ | ⟨⟨_ | omode,k2⟩,ok,second,_⟩
    · dsimp only
      rw [fail]
      exact first.permitted permitted
    · dsimp only
      rw [ok]
      have both := first.trans second
      exact ⟨safe.accessed both,both.remains⟩
    · dsimp only
      rw [ok]
      have both := first.trans second
      exact both.meets ((Safe.openPath guard (safe.accessed both) _ omode).mono fun r kept =>
        ⟨kept.1,both.remains.trans kept.2⟩)

theorem Guard.mknodPath (guard : Guard Inv) {hs : List Handle} {m : Mode} (inv : Inv hs k.fs) (room : hs.length < 48)
    (here : (k.proc.cwd,m) ∈ hs) (path : List Byte) (major minor : Nat) :
    Meets Tolerated (mknodPath k path major minor) (fun r => ∃ fs, r.2 = { k with fs := fs } ∧ Inv hs fs) := by
  unfold Kernel.mknodPath
  rcases (guard.create inv room here path (by decide : tDev ≠ 0) (by decide)
    (BitVec.ofNat 16 major) (BitVec.ofNat 16 minor)).cases with ⟨e,fail,tolerated⟩ | ⟨⟨_ | ip,fs⟩,ok,inv⟩
  · rw [fail]
    exact tolerated
  · rw [ok]
    exact ⟨fs,rfl,inv⟩
  · rw [ok]
    exact ⟨_,rfl,guard.unlockput (guard.weaken inv)⟩

theorem Safe.mknodPath (guard : Guard Inv) (safe : Safe Inv k) (path : List Byte) (major minor : Nat) :
    Meets (Permitted k) (mknodPath k path major minor) (fun r => Safe Inv r.2 ∧ Remains k r.2) := by
  rcases (guard.mknodPath safe.inv safe.room List.mem_cons_self path major minor).cases with
    ⟨e,fail,tolerated⟩ | ⟨⟨r,k'⟩,ok,fs,rfl,inv⟩
  · rw [fail]
    exact permitted_of_tolerated tolerated
  · rw [ok]
    exact ⟨⟨safe.table,inv⟩,Remains.keep k _ _ _⟩

theorem Safe.sysMknod (guard : Guard Inv) (safe : Safe Inv k) :
    Meets (Permitted k) (sysMknod k) (fun r => Safe Inv r.2 ∧ Remains k r.2) := by
  unfold Kernel.sysMknod
  rcases (argstr_accessed k 0).cases with ⟨e,fail,permitted⟩ | ⟨⟨_ | ⟨addr,len⟩,k1⟩,ok,first,_⟩
  · rw [fail]
    exact permitted
  · rw [ok]
    exact ⟨safe.accessed first,first.remains⟩
  · rw [ok]
    rcases (argint_accessed k1 1).cases with ⟨e,fail,permitted⟩ | ⟨⟨_ | major,k2⟩,ok,second,_⟩
    · dsimp only
      rw [fail]
      exact first.permitted permitted
    · dsimp only
      rw [ok]
      have both := first.trans second
      exact ⟨safe.accessed both,both.remains⟩
    · have both := first.trans second
      dsimp only
      rw [ok]
      rcases (argint_accessed k2 2).cases with ⟨e,fail,permitted⟩ | ⟨⟨_ | minor,k3⟩,ok,third,_⟩
      · dsimp only
        rw [fail]
        exact both.permitted permitted
      · dsimp only
        rw [ok]
        have all := both.trans third
        exact ⟨safe.accessed all,all.remains⟩
      · dsimp only
        rw [ok]
        have all := both.trans third
        exact all.meets ((Safe.mknodPath guard (safe.accessed all) _ major minor).mono fun r kept =>
          ⟨kept.1,all.remains.trans kept.2⟩)

theorem Safe.handle (safe : Safe Inv k) (named : k.proc.ofile fd = some f) :
    (k.file f).type = .inode ∧ (k.file f).handle =
      some ((k.file f).ip,if (k.file f).writable then .write else .read) := by
  obtain ⟨one,type⟩ := safe.table.taken fd f named
  exact ⟨type,by simp [File.handle,one,type]⟩

theorem Safe.handle_mem (safe : Safe Inv k) (named : k.proc.ofile fd = some f) :
    ((k.file f).ip,if (k.file f).writable then Mode.write else .read) ∈ k.handles :=
  List.mem_cons_of_mem _ (List.mem_filterMap.mpr ⟨f,List.mem_finRange f,(safe.handle named).2⟩)

/-- The offset of a file is no concern of the invariant. -/
theorem Safe.seek (safe : Safe Inv k) {fs : FsState} (inv : Inv k.handles fs) (off : Nat) (frame : Page → Buffer) :
    Safe Inv { k with
      fs := fs
      vm := { k.vm with frame := frame }
      file := Function.update k.file f { k.file f with off := off } } := by
  refine ⟨safe.table.update rfl rfl,?_⟩
  have same : opened (Function.update k.file f { k.file f with off := off }) = opened k.file := opened_same rfl
  rw [State.handles]
  dsimp only
  rw [same]
  exact inv

theorem Remains.data (k : State) (fs : FsState) (file : FileId → File) (frame : Page → Buffer) :
    Remains k { k with fs := fs,file := file,vm := { k.vm with frame := frame } } :=
  ⟨rfl,rfl,rfl,rfl,rfl,fun _ _ => Or.inl⟩

theorem Safe.fileread (guard : Guard Inv) (safe : Safe Inv k) (named : k.proc.ofile fd = some f) (addr : Nat)
    {n : Nat} (width : n < 4294967296) :
    Safe Inv (fileread k f addr n).2 ∧ Remains k (fileread k f addr n).2 := by
  have member := safe.handle_mem named
  unfold Kernel.fileread
  dsimp only
  split
  · exact ⟨safe,Remains.refl k⟩
  · rw [if_pos (safe.handle named).1]
    have locked := guard.lock safe.inv member
    have read := guard.read (userMem k addr) (k.file f).off n locked member (ilock_valid _ _) width
    generalize readi (ilock k.fs (k.file f).ip) (k.file f).ip (userMem k addr) (k.file f).off n = result at read ⊢
    obtain ⟨r,dst,fs⟩ := result
    obtain ⟨frame,stored⟩ := storeUser_frame { k with fs := fs } addr dst r.toNat
    dsimp only at read ⊢
    rw [stored]
    have unlocked := guard.unlock read (k.file f).ip
    split
    · exact ⟨safe.seek unlocked _ frame,Remains.data k _ _ _⟩
    · refine ⟨?_,Remains.data k _ _ _⟩
      exact ⟨safe.table,unlocked⟩

/-- One round of `filewrite`, up to its test of the result. -/
def writeRound (k : State) (f : FileId) (addr n i : Nat) : Int × State :=
  let v := k.file f
  let fs := ilock k.fs v.ip
  let (r,fs) := writei fs v.ip (userMem k (addr + i)) v.off (min (n - i) writeMax)
  let k := { k with fs := fs }
  let k := if r > 0 then k.setFile f { v with off := u32 (v.off + r.toNat) } else k
  (r,{ k with fs := iunlock k.fs v.ip })

/-- What every round keeps, and the message after a short one, the loop keeps. -/
theorem filewriteLoop_keeps {post : State → Prop} {addr n : Nat}
    (round : ∀ k i, post k → post (writeRound k f addr n i).2)
    (short : ∀ k, post k → post { k with fs := kprint k.fs .shortWrite }) (fuel i : Nat) (before : post k) :
    Meets (· = .hang) (filewriteLoop f addr n fuel k i) (fun r => post r.2) := by
  induction fuel generalizing k i with
  | zero => exact Meets.error rfl
  | succ fuel ih =>
    unfold Kernel.filewriteLoop
    split
    · have after := round k i before
      unfold writeRound at after
      dsimp only at after ⊢
      generalize writei (ilock k.fs (k.file f).ip) (k.file f).ip (userMem k (addr + i)) (k.file f).off
        (min (n - i) writeMax) = result at after ⊢
      obtain ⟨r,fs⟩ := result
      dsimp only at after ⊢
      split
      · exact after
      split
      · exact ih _ (short _ after)
      · exact ih _ after
    · exact before

theorem Safe.writeRound (guard : Guard Inv) (safe : Safe Inv k) (named : k.proc.ofile fd = some f)
    (writable : (k.file f).writable = true) (addr n i : Nat) :
    Safe Inv (writeRound k f addr n i).2 ∧ Remains k (writeRound k f addr n i).2 := by
  have member := safe.handle_mem named
  rw [writable,if_pos rfl] at member
  have locked := guard.lock safe.inv member
  have write := guard.write (userMem k (addr + i)) (k.file f).off (min (n - i) writeMax) locked member
    (ilock_valid _ _) (lt_of_le_of_lt (min_le_right _ _) (by decide))
  unfold Kernel.writeRound
  dsimp only
  generalize writei (ilock k.fs (k.file f).ip) (k.file f).ip (userMem k (addr + i)) (k.file f).off
    (min (n - i) writeMax) = result at write ⊢
  obtain ⟨r,fs⟩ := result
  dsimp only at write ⊢
  have unlocked := guard.unlock write (k.file f).ip
  split
  · exact ⟨safe.seek unlocked _ k.vm.frame,Remains.data k _ _ _⟩
  · exact ⟨⟨safe.table,unlocked⟩,Remains.keep k _ _ _⟩

/-- The descriptors stay, and the files but for the offset of `f`. -/
theorem writeRound_same (k : State) (f : FileId) (addr n i : Nat) : (writeRound k f addr n i).2.proc = k.proc ∧
    ∃ off, (writeRound k f addr n i).2.file = Function.update k.file f { k.file f with off := off } := by
  unfold writeRound
  dsimp only
  split
  · exact ⟨rfl,_,rfl⟩
  · exact ⟨rfl,(k.file f).off,(Function.update_eq_self f k.file).symm⟩

theorem Safe.filewriteLoop (guard : Guard Inv) (safe : Safe Inv k) (named : k.proc.ofile fd = some f)
    (writable : (k.file f).writable = true) (addr n fuel i : Nat) :
    Meets (Permitted k) (filewriteLoop f addr n fuel k i) (fun r => Safe Inv r.2 ∧ Remains k r.2) := by
  let post (k' : State) : Prop := Safe Inv k' ∧ Remains k k' ∧ k'.proc = k.proc ∧ (k'.file f).writable = true
  have loop : Meets (· = .hang) (Kernel.filewriteLoop f addr n fuel k i) (fun r => post r.2) := by
    refine filewriteLoop_keeps (fun k' i before => ?_) (fun k' before => ?_) fuel i ⟨safe,Remains.refl k,rfl,writable⟩
    · obtain ⟨safe',remains,proc,file⟩ := before
      obtain ⟨kept,onward⟩ := safe'.writeRound guard (by rw [proc]; exact named) file addr n i
      obtain ⟨same,off,moved⟩ := writeRound_same k' f addr n i
      refine ⟨kept,remains.trans onward,same.trans proc,?_⟩
      rw [moved,Function.update_self]
      exact file
    · obtain ⟨safe',remains,proc,file⟩ := before
      exact ⟨⟨safe'.table,guard.print _ safe'.inv (by decide) (by decide)⟩,remains.trans (Remains.keep k' _ _ _),proc,file⟩
  rcases loop.cases with ⟨e,fail,rfl⟩ | ⟨r,ok,safe',remains,_⟩
  · rw [fail]
    exact ⟨by decide,fun _ => by decide⟩
  · rw [ok]
    exact ⟨safe',remains⟩

theorem Safe.filewrite (guard : Guard Inv) (safe : Safe Inv k) (named : k.proc.ofile fd = some f) (addr n : Nat) :
    Meets (Permitted k) (filewrite k f addr n) (fun r => Safe Inv r.2 ∧ Remains k r.2) := by
  unfold Kernel.filewrite
  dsimp only
  split
  · exact ⟨safe,Remains.refl k⟩
  · rename_i writable
    rw [if_pos (safe.handle named).1]
    exact safe.filewriteLoop guard named (by simpa using writable) addr n _ _

theorem Safe.sysRead (guard : Guard Inv) (safe : Safe Inv k) :
    Meets (Permitted k) (sysRead k) (fun r => Safe Inv r.2 ∧ Remains k r.2) := by
  unfold Kernel.sysRead
  rcases (argbuf_accessed k).cases with ⟨e,fail,permitted⟩ | ⟨⟨_ | ⟨f,p,n⟩,k1⟩,ok,first,buffer⟩
  · rw [fail]
    exact permitted
  · rw [ok]
    exact ⟨safe.accessed first,first.remains⟩
  · rw [ok]
    obtain ⟨width,fd,named⟩ := buffer f p n rfl
    rw [← first.proc] at named
    have kept := (safe.accessed first).fileread guard named p width
    exact ⟨kept.1,first.remains.trans kept.2⟩

theorem Safe.sysWrite (guard : Guard Inv) (safe : Safe Inv k) :
    Meets (Permitted k) (sysWrite k) (fun r => Safe Inv r.2 ∧ Remains k r.2) := by
  unfold Kernel.sysWrite
  rcases (argbuf_accessed k).cases with ⟨e,fail,permitted⟩ | ⟨⟨_ | ⟨f,p,n⟩,k1⟩,ok,first,buffer⟩
  · rw [fail]
    exact permitted
  · rw [ok]
    exact ⟨safe.accessed first,first.remains⟩
  · rw [ok]
    obtain ⟨width,fd,named⟩ := buffer f p n rfl
    rw [← first.proc] at named
    exact first.meets (((safe.accessed first).filewrite guard named p n).mono fun r kept =>
      ⟨kept.1,first.remains.trans kept.2⟩)

theorem Safe.close (guard : Guard Inv) (safe : Safe Inv k) (named : k.proc.ofile fd = some f) :
    Safe Inv (fileclose { k with proc := { k.proc with ofile := Function.update k.proc.ofile fd none } } f) ∧
      Remains k (fileclose { k with proc := { k.proc with ofile := Function.update k.proc.ofile fd none } } f) := by
  obtain ⟨one,type⟩ := safe.table.taken fd f named
  have closed := fileclose_last
    (k := { k with proc := { k.proc with ofile := Function.update k.proc.ofile fd none } }) one
  rw [closed,if_pos type]
  refine ⟨⟨safe.table.close named rfl rfl,?_⟩,Remains.keep k _ _ _⟩
  have apart := guard.perm safe.inv (handles_take (safe.handle named).2 (v := { k.file f with ref := 0,type := .none })
    (by simp [File.handle]))
  refine guard.put ?_
  split at apart
  · exact guard.weaken apart
  · exact apart

theorem Safe.sysClose (guard : Guard Inv) (safe : Safe Inv k) :
    Meets (Permitted k) (sysClose k) (fun r => Safe Inv r.2 ∧ Remains k r.2) := by
  unfold Kernel.sysClose
  rcases (argfd_accessed k 0).cases with ⟨e,fail,permitted⟩ | ⟨⟨_ | ⟨fd,f⟩,k1⟩,ok,first,named⟩
  · rw [fail]
    exact permitted
  · rw [ok]
    exact ⟨safe.accessed first,first.remains⟩
  · rw [ok]
    have named := named fd f rfl
    rw [← first.proc] at named
    have kept := (safe.accessed first).close guard named
    exact ⟨kept.1,first.remains.trans kept.2⟩

theorem Safe.sysFstat (guard : Guard Inv) (safe : Safe Inv k) :
    Meets (Permitted k) (sysFstat k) (fun r => Safe Inv r.2 ∧ Remains k r.2) := by
  unfold Kernel.sysFstat
  rcases (argfd_accessed k 0).cases with ⟨e,fail,permitted⟩ | ⟨⟨_ | ⟨fd,f⟩,k1⟩,ok,first,named⟩
  · rw [fail]
    exact permitted
  · rw [ok]
    exact ⟨safe.accessed first,first.remains⟩
  · rw [ok]
    rcases (argptr_accessed k1 1 (by decide : (statSize : Int) < 2147483648)).cases with ⟨e,fail,permitted⟩ | ⟨⟨_ | p,k2⟩,ok,second⟩
    · dsimp only
      rw [fail]
      exact first.permitted permitted
    · dsimp only
      rw [ok]
      have both := first.trans second
      exact ⟨safe.accessed both,both.remains⟩
    · dsimp only
      rw [ok]
      have both := first.trans second
      have safe2 := safe.accessed both
      have named2 : k2.proc.ofile fd = some f := by
        rw [both.proc]
        exact named fd f rfl
      have inv := guard.unlock (guard.lock safe2.inv (safe2.handle_mem named2)) (k2.file f).ip
      obtain ⟨frame,stored⟩ := storeUser_frame { k2 with fs := iunlock (ilock k2.fs (k2.file f).ip) (k2.file f).ip } p
        (statBytes (userMem { k2 with fs := iunlock (ilock k2.fs (k2.file f).ip) (k2.file f).ip } p)
          (stati ((ilock k2.fs (k2.file f).ip).icache (k2.file f).ip))) statSize
      dsimp only
      rw [filestat,if_pos (safe2.handle named2).1]
      dsimp only
      rw [stored]
      refine ⟨?_,both.remains.trans (Remains.data k2 _ _ _)⟩
      exact ⟨safe2.table,inv⟩

end calls

end Lxos.Kernel
