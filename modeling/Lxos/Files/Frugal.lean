import Lxos.Files.Availability

/-! Calls that need nothing new. One that makes no file, and writes none past its end, takes
no block either, and so it ends with what the service answers. -/
namespace Lxos.Files
open Lxos.Bytes Lxos.Fs Lxos.Kernel Lxos.Utils Lxos.Outcome Lxos.Places

/-- Requests that make no file and let none grow. -/
def Request.Frugal (s : Service) : Request → Prop
  | .open_ _ omode => omode.testBit 9 = false
  | .mknod _ _ _ => False
  | .write fd src => ∀ a, s.lookup fd = some a →
      (s.node a.2.inum).type = tDev ∨ a.2.off + src.length ≤ (s.node a.2.inum).data.length
  | _ => True

section write
variable {dev : Nat} {ip : Slot} {st st' : FsState}

/-- Where the blocks are there, writing to them takes none. -/
theorem writeiLoop_inside (ready : Ready dev ip st) (src : Buffer) (n fuel tot off : Nat)
    (there : ∀ bn, bn * 512 < off + (n - tot) → bn < 140 ∧ (st.volume dev).ref ((st.icache ip).inum,bn) ≠ 0) :
    (writeiLoop ip src n fuel st tot off).2.exhausted = st.exhausted := by
  induction fuel generalizing st tot off with
  | zero => rfl
  | succ fuel ih =>
    unfold writeiLoop
    by_cases more : tot < n
    · obtain ⟨index,present⟩ := there (off / 512) (by omega)
      obtain ⟨idle,value⟩ := bmap_present ready index present
      rw [if_pos more,ready.locked.2.1]
      dsimp only [bsize]
      generalize bmap st ip (off / 512) = r at idle value ⊢
      obtain ⟨a,st1⟩ := r
      dsimp only at idle value ⊢
      subst value
      have grown : Grown dev ip st st1 := (idle.seen ready).grown
      have step := @Written.chunk dev ip st st1 ready grown (fun i => src (tot + i)) off
        (min (n - tot) (512 - off % 512)) (by omega) index (by omega) (by rw [idle.volume]; exact present) fun _ => idle.icache
      dsimp only at step
      rw [idle.volume] at step
      rw [bread_disk]
      generalize blit (st1.disk dev _) (off % 512) (min (n - tot) (512 - off % 512)) _ = data at step ⊢
      have same : (brelse (bwrite (bread st1 dev ((st.volume dev).ref ((st.icache ip).inum,off / 512))) dev
          ((st.volume dev).ref ((st.icache ip).inum,off / 512)) data) dev
            ((st.volume dev).ref ((st.icache ip).inum,off / 512))).exhausted = st.exhausted := by
        rw [← idle.exhausted]
        rfl
      generalize brelse (bwrite _ _ _ _) _ _ = st2 at step same ⊢
      rw [← same]
      refine ih (step.ready ready) _ _ fun bn low => ?_
      obtain ⟨small,block⟩ := there bn (by omega)
      rw [step.change.inum]
      exact ⟨small,by rw [step.frame.keep _ block]; exact block⟩
    · rw [if_neg more]

theorem writei_inside (ready : Ready dev ip st) (filled : (st.volume dev).Filled (st.icache ip).inum) (src : Buffer)
    {off n : Nat} (inside : off + n ≤ (st.icache ip).size.toNat) : (writei st ip src off n).2.exhausted = st.exhausted := by
  have copy := ready.copy
  have loop := writeiLoop_inside ready src n n 0 off fun bn low => filled bn (by rw [copy]; omega)
  unfold writei
  dsimp only
  split
  · split
    · rfl
    · split
      · rfl
      · rfl
  · split
    · rfl
    · split
      · rfl
      · split
        · exact loop
        · exact loop

end write

section calls
variable {all : List Page} {kpgdir : Page} {strict : Prop} {loose : Nat → Prop} {marks : List (Slot × Nat)} {origin : FsState}
  {data : Nat} {k k₁ k' : State} {path : List Byte} {r : Int} {fd : Fin nofile} {f : FileId}

theorem unlocked_same {st : FsState} {ip : Slot} (used : 0 < (st.icache ip).ref) : iunlock st ip = st :=
  if_neg (by omega)

theorem openPath_idle (settled : Settled strict loose marks origin k) (bound : ∀ n, loose n → ∃ s, (s,n) ∈ marks)
    (neat : Safe Neat k) (string : 0 ∉ path) {omode : Nat} (old : omode.testBit 9 = false)
    (ok : openPath k path omode = .ok (r,k')) : k'.fs.exhausted = false := by
  have alive := alive_moored settled neat
  have bound := settled.bound bound
  obtain ⟨room,here⟩ := settled.moorage
  unfold openPath at ok
  rw [if_neg (by rw [old]; exact Bool.false_ne_true)] at ok
  obtain ⟨⟨_ | ip,name,fs⟩,walk,walked⟩ := alive.namex bound room here string false
  · unfold namei at ok
    rw [walk] at ok
    obtain ⟨rfl,rfl⟩ := Prod.mk.inj (Except.ok.inj ok)
    exact walked.enough
  · obtain ⟨alive1,_⟩ := walked
    unfold namei at ok
    rw [walk] at ok
    have locked := alive1.lock bound List.mem_cons_self
    dsimp only at ok locked
    generalize ilock fs ip = fs1 at ok locked
    split at ok
    · obtain ⟨rfl,rfl⟩ := Prod.mk.inj (Except.ok.inj ok)
      exact (locked.unlockput bound).enough
    · have opened : openFile { k with fs := fs1 } ip omode = (r,k') := Except.ok.inj ok
      rcases @openFile_first { k with fs := fs1 } settled.safe.table ip omode with ⟨_,failed⟩ | ⟨fd,f,_,_,done⟩
      · have last := (locked.unlockput bound).enough
        rw [failed] at opened
        obtain ⟨rfl,rfl⟩ := Prod.mk.inj opened
        dsimp only
        exact last
      · rw [done] at opened
        obtain ⟨rfl,rfl⟩ := Prod.mk.inj opened
        dsimp only
        rw [unlocked_same (locked.neat.counted.used List.mem_cons_self)]
        exact locked.enough

theorem fileread_idle (settled : Settled strict loose marks origin k) (neat : Safe Neat k) (named : k.proc.ofile fd = some f)
    {addr n : Nat} (width : n < 4294967296) : (fileread k f addr n).2.fs.exhausted = false := by
  have tidy := neat.inv.tidy settled.enough
  have used := settled.used named
  cases readable : (k.file f).readable with
  | false =>
    have refused : fileread k f addr n = (-1,k) := if_pos readable
    rw [refused]
    exact settled.enough
  | true =>
    obtain ⟨frame,form⟩ := fileread_form readable (settled.safe.handle named).1 addr n
    have loaded := ilock_loaded (tidy.named used)
    have tidy1 := (tidy.loaded used).1
    have used1 : 0 < ((ilock k.fs (k.file f).ip).icache (k.file f).ip).ref := by
      rw [loaded.self]
      exact used
    have idle := tidy1.read used1 (ilock_valid _ _) False.elim (userMem k addr) (k.file f).off width
    rw [form]
    dsimp only
    rw [unlocked_same (by rw [idle.icache]; exact used1),idle.exhausted,loaded.exhausted]
    exact settled.enough

theorem fileclose_idle (settled : Settled strict loose marks origin k) (named : k.proc.ofile fd = some f) :
    (fileclose { k with proc := { k.proc with ofile := Function.update k.proc.ofile fd none } } f).fs.exhausted = false := by
  obtain ⟨one,type⟩ := settled.safe.table.taken fd f named
  have closed := fileclose_last
    (k := { k with proc := { k.proc with ofile := Function.update k.proc.ofile fd none } }) one
  rw [if_pos type] at closed
  rw [closed]
  dsimp only
  rw [settled.orderly.lawful.iput_eq (settled.used named)]
  exact settled.enough

theorem sysOpen_idle (settled : Settled strict loose marks origin k) (bound : ∀ n, loose n → ∃ s, (s,n) ∈ marks)
    (neat : Safe Neat k) {q : Request} (asked : request k .open_ = some q) (frugal : q.Frugal (service k)) (ok : sysOpen k = .ok (r,k')) :
    k'.fs.exhausted = false := by
  unfold sysOpen at ok
  split at ok
  · cases ok
  · rename_i k1 fetched
    obtain ⟨rfl,rfl⟩ := Prod.mk.inj (Except.ok.inj ok)
    rw [(argstr_text fetched).2.1.fs]
    exact settled.enough
  · rename_i addr len k1 fetched
    obtain ⟨path,first,string⟩ := argstr_text fetched
    split at ok
    · cases ok
    · rename_i k2 fetched
      obtain ⟨_,second⟩ := argint_word fetched
      obtain ⟨rfl,rfl⟩ := Prod.mk.inj (Except.ok.inj ok)
      rw [(first.trans second).fs]
      exact settled.enough
    · rename_i omode k2 fetched
      obtain ⟨value,second⟩ := argint_word fetched
      have accessed := first.trans second
      rw [word_accessed first] at value
      have same : userString k2 addr len = userString k addr len := by
        unfold userString
        rw [accessed.userMem]
      unfold request at asked
      rw [← path,← value] at asked
      obtain rfl := Option.some.inj asked
      refine openPath_idle (settled.accessed accessed) bound (neat.accessed accessed) ?_ frugal ok
      rw [same]
      exact string _ rfl

theorem sysMknod_idle (settled : Settled strict loose marks origin k) {q : Request} (asked : request k .mknod = some q)
    (frugal : q.Frugal (service k)) (ok : sysMknod k = .ok (r,k')) : k'.fs.exhausted = false := by
  unfold sysMknod at ok
  split at ok
  · cases ok
  · rename_i k1 fetched
    obtain ⟨rfl,rfl⟩ := Prod.mk.inj (Except.ok.inj ok)
    rw [(argstr_text fetched).2.1.fs]
    exact settled.enough
  · rename_i addr len k1 fetched
    obtain ⟨path,first,_⟩ := argstr_text fetched
    split at ok
    · cases ok
    · rename_i k2 fetched
      obtain ⟨_,second⟩ := argint_word fetched
      obtain ⟨rfl,rfl⟩ := Prod.mk.inj (Except.ok.inj ok)
      rw [(first.trans second).fs]
      exact settled.enough
    · rename_i major k2 fetched
      obtain ⟨value,second⟩ := argint_word fetched
      rw [word_accessed first] at value
      split at ok
      · cases ok
      · rename_i k3 fetched
        obtain ⟨_,third⟩ := argint_word fetched
        obtain ⟨rfl,rfl⟩ := Prod.mk.inj (Except.ok.inj ok)
        rw [((first.trans second).trans third).fs]
        exact settled.enough
      · rename_i minor k3 fetched
        obtain ⟨value',third⟩ := argint_word fetched
        rw [word_accessed (first.trans second)] at value'
        unfold request at asked
        rw [← path,← value,← value'] at asked
        obtain rfl := Option.some.inj asked
        exact frugal.elim

theorem sysRead_idle (settled : Settled strict loose marks origin k) (neat : Safe Neat k) (ok : sysRead k = .ok (r,k')) :
    k'.fs.exhausted = false := by
  unfold sysRead at ok
  split at ok
  · cases ok
  · rename_i k1 fetched
    obtain ⟨rfl,rfl⟩ := Prod.mk.inj (Except.ok.inj ok)
    rw [((argbuf_accessed k).elim fetched).1.fs]
    exact settled.enough
  · rename_i f p n k1 fetched
    obtain ⟨accessed,buffer⟩ := (argbuf_accessed k).elim fetched
    obtain ⟨width,fd,named⟩ := buffer f p n rfl
    rw [← accessed.proc] at named
    have idle := @fileread_idle _ _ _ _ _ _ _ (settled.accessed accessed) (neat.accessed accessed) named p n width
    rw [Except.ok.inj ok] at idle
    exact idle

/-- Each chunk lies in the file. -/
theorem filewriteLoop_idle (safe : Safe Neat k) (named : k.proc.ofile fd = some f) (writable : (k.file f).writable = true)
    (enough : k.fs.exhausted = false) {addr n fuel i : Nat}
    (inside : (k.file f).off + (n - i) ≤ (k.inode (k.file f).ip).size.toNat) {r : Int × State}
    (ok : filewriteLoop f addr n fuel k i = .ok r) : r.2.fs.exhausted = false := by
  induction fuel generalizing k i with
  | zero => cases ok
  | succ fuel ih =>
    have tidy := safe.inv.tidy enough
    have used : 0 < (k.fs.icache (k.file f).ip).ref := safe.inv.counted.used (safe.handle_mem named)
    have names := tidy.named used
    have loaded := ilock_loaded names
    obtain ⟨tidy1,volume1⟩ := tidy.loaded used
    have number := (ilock_calm k.fs (k.file f).ip).inum (k.file f).ip
    have ready : Ready rootdev (k.file f).ip (ilock k.fs (k.file f).ip) :=
      tidy1.ready (by rw [loaded.self]; exact used) (ilock_valid _ _)
    have copy := ready.copy
    rw [volume1,number] at copy
    have size : (k.inode (k.file f).ip).size = ((ilock k.fs (k.file f).ip).icache (k.file f).ip).size :=
      congrArg Dinode.size copy
    have round := (safe.writeRound neat_guard named writable addr n i).1
    have descriptors := (writeRound_same k f addr n i).1
    unfold filewriteLoop at ok
    split at ok
    · rename_i more
      have few : min (n - i) writeMax ≤ n - i := Nat.min_le_left _ _
      have answers := writei_answers (ilock k.fs (k.file f).ip) (k.file f).ip (userMem k (addr + i)) (k.file f).off
        (min (n - i) writeMax)
      have chunk : int32 (min (n - i) writeMax) = min (n - i) writeMax :=
        int32_of_lt (by change min (n - i) 1536 < 2147483648; omega)
      have some_bytes : 0 < min (n - i) writeMax := by
        change 0 < min (n - i) 1536
        omega
      have local_change := writei_local (ilock k.fs (k.file f).ip) (k.file f).ip (userMem k (addr + i)) (k.file f).off
        (min (n - i) writeMax)
      -- A device has no blocks. In a file they are there, and its size stays.
      have quiet : (writei (ilock k.fs (k.file f).ip) (k.file f).ip (userMem k (addr + i)) (k.file f).off
          (min (n - i) writeMax)).2.exhausted = false ∧
          ((writei (ilock k.fs (k.file f).ip) (k.file f).ip (userMem k (addr + i)) (k.file f).off
            (min (n - i) writeMax)).1 ≠ -1 → (((writei (ilock k.fs (k.file f).ip) (k.file f).ip (userMem k (addr + i))
              (k.file f).off (min (n - i) writeMax)).2.volume rootdev).inode (k.fs.icache (k.file f).ip).inum).size.toNat =
                (k.inode (k.file f).ip).size.toNat) := by
        by_cases device : ((ilock k.fs (k.file f).ip).icache (k.file f).ip).type = tDev
        · rw [writei_device device,volume1]
          exact ⟨loaded.exhausted.trans enough,fun _ => rfl⟩
        · have free : (writei (ilock k.fs (k.file f).ip) (k.file f).ip (userMem k (addr + i)) (k.file f).off
              (min (n - i) writeMax)).2.exhausted = false := by
            rw [writei_inside ready (tidy1.filled ready device False.elim) _ (by rw [← size]; omega),loaded.exhausted]
            exact enough
          refine ⟨free,fun _ => ?_⟩
          have small := (tidy1.filled ready device False.elim).small
          rw [ready.copy,← size] at small
          have laid := (writei_overlaid names tidy.volume.sound (by rw [copy]; exact device)
            (by change (k.file f).off ≤ (k.inode (k.file f).ip).size.toNat; omega) (userMem k (addr + i)) (by omega) free).2
          rw [laid.size]
          change max (k.inode (k.file f).ip).size.toNat _ = _
          omega
      unfold writeRound at round descriptors
      dsimp only at ok round descriptors
      rw [chunk] at answers
      generalize min (n - i) writeMax = n1 at *
      generalize writei (ilock k.fs (k.file f).ip) (k.file f).ip (userMem k (addr + i)) (k.file f).off n1 = result at *
      obtain ⟨c,fs⟩ := result
      dsimp only at ok round descriptors answers quiet local_change
      obtain ⟨free,kept⟩ := quiet
      have unlocked : iunlock fs (k.file f).ip = fs := unlocked_same (by
        rw [local_change.ref,loaded.self]
        exact used)
      rcases answers with rfl | rfl
      · rw [if_pos (show (-1 : Int) < 0 by decide),if_neg (show ¬(-1 : Int) > 0 by decide)] at ok
        rw [← Except.ok.inj ok]
        dsimp only
        rw [unlocked]
        exact free
      · have forward : ((n1 : Nat) : Int) > 0 := by omega
        rw [if_pos forward,if_neg (by omega),if_neg (not_not.mpr rfl),Int.toNat_natCast] at ok
        rw [if_pos forward,Int.toNat_natCast] at round descriptors
        have same := kept (by omega)
        dsimp only [State.setFile] at ok round descriptors
        rw [unlocked] at ok round
        have moved : Function.update k.file f { k.file f with off := u32 ((k.file f).off + n1) } f =
          { k.file f with off := u32 ((k.file f).off + n1) } := Function.update_self _ _ _
        refine ih round named ?_ free ?_ ok
        · dsimp only
          rw [moved]
          exact writable
        · dsimp only
          rw [moved]
          change u32 ((k.file f).off + n1) + (n - (i + n1)) ≤
            ((fs.volume rootdev).inode (fs.icache (k.file f).ip).inum).size.toNat
          have width := (k.inode (k.file f).ip).size.isLt
          rw [local_change.inum,number,same,u32_of_lt (by omega)]
          omega
    · rw [← Except.ok.inj ok]
      exact enough

theorem sysWrite_idle (settled : Settled strict loose marks origin k) (neat : Safe Neat k) {q : Request}
    (asked : request k .write = some q) (frugal : q.Frugal (service k)) (ok : sysWrite k = .ok (r,k')) :
    k'.fs.exhausted = false := by
  unfold sysWrite at ok
  split at ok
  · cases ok
  · rename_i k1 fetched
    obtain ⟨rfl,rfl⟩ := Prod.mk.inj (Except.ok.inj ok)
    rw [((argbuf_accessed k).elim fetched).1.fs]
    exact settled.enough
  · rename_i f p n k1 fetched
    obtain ⟨accessed,_,found⟩ := argbuf_transfer fetched fun fd n p => .write fd (taken (userMem k p) n)
    obtain ⟨_,_,fd,named,same⟩ := found f p n rfl
    unfold request at asked
    rw [same] at asked
    obtain rfl := Option.some.inj asked
    have covered := frugal _ (service_lookup named)
    rw [← accessed.proc] at named
    have settled1 := settled.accessed accessed
    have length : ((service k).node (desc k f).inum).data.length = (k.inode (k.file f).ip).size.toNat := node_length
    have inode : k1.inode = k.inode := by
      unfold State.inode
      rw [accessed.fs]
    rw [length,taken_length] at covered
    cases writable : (k1.file f).writable with
    | false =>
      have refused : filewrite k1 f p n = .ok (-1,k1) := if_pos writable
      obtain ⟨rfl,rfl⟩ := Prod.mk.inj (Except.ok.inj (refused.symm.trans ok))
      exact settled1.enough
    | true =>
      have type := (settled1.safe.handle named).1
      rcases covered with device | inside
      · have names := settled1.orderly.lawful.named (settled1.used named)
        have loaded := ilock_loaded names
        obtain ⟨_,ready,volume,number⟩ := settled1.locked named
        have copy := ready.copy
        rw [volume,number] at copy
        have screen : ((ilock k1.fs (k1.file f).ip).icache (k1.file f).ip).type = tDev := by
          rw [← copy,accessed.fs,accessed.file]
          exact device
        rw [filewrite_device names type writable screen] at ok
        have after := congrArg (fun r : Int × State => r.2.fs.exhausted) (Except.ok.inj ok)
        dsimp only at after
        rw [← after]
        split
        · exact settled1.enough
        · split
          · exact loaded.exhausted.trans settled1.enough
          · exact loaded.exhausted.trans settled1.enough
      · rw [filewrite,if_neg (by rw [writable]; decide),if_pos type] at ok
        refine filewriteLoop_idle (neat.accessed accessed) named writable settled1.enough ?_ ok
        rw [inode,accessed.file]
        exact inside

theorem sysClose_idle (settled : Settled strict loose marks origin k) (ok : sysClose k = .ok (r,k')) :
    k'.fs.exhausted = false := by
  unfold sysClose at ok
  split at ok
  · cases ok
  · rename_i k1 fetched
    obtain ⟨rfl,rfl⟩ := Prod.mk.inj (Except.ok.inj ok)
    rw [((argfd_accessed k 0).elim fetched).1.fs]
    exact settled.enough
  · rename_i fd f k1 fetched
    obtain ⟨accessed,named⟩ := (argfd_accessed k 0).elim fetched
    have named := named fd f rfl
    rw [← accessed.proc] at named
    obtain ⟨rfl,rfl⟩ := Prod.mk.inj (Except.ok.inj ok)
    exact fileclose_idle (settled.accessed accessed) named

theorem sysFstat_idle (settled : Settled strict loose marks origin k) (ok : sysFstat k = .ok (r,k')) :
    k'.fs.exhausted = false := by
  unfold sysFstat at ok
  split at ok
  · cases ok
  · rename_i k1 fetched
    obtain ⟨rfl,rfl⟩ := Prod.mk.inj (Except.ok.inj ok)
    rw [((argfd_accessed k 0).elim fetched).1.fs]
    exact settled.enough
  · rename_i fd f k1 fetched
    obtain ⟨first,named⟩ := (argfd_accessed k 0).elim fetched
    have named := named fd f rfl
    split at ok
    · cases ok
    · rename_i k2 fetched
      have second := (argptr_accessed k1 1 (by decide : (statSize : Int) < 2147483648)).elim fetched
      obtain ⟨rfl,rfl⟩ := Prod.mk.inj (Except.ok.inj ok)
      rw [(first.trans second).fs]
      exact settled.enough
    · rename_i p k2 fetched
      have second := (argptr_accessed k1 1 (by decide : (statSize : Int) < 2147483648)).elim fetched
      have settled2 := settled.accessed (first.trans second)
      rw [← (first.trans second).proc] at named
      have used := settled2.used named
      have loaded := ilock_loaded (settled2.orderly.lawful.named used)
      have used1 : 0 < ((ilock k2.fs (k2.file f).ip).icache (k2.file f).ip).ref := by
        rw [loaded.self]
        exact used
      rw [filestat,if_pos (settled2.safe.handle named).1] at ok
      dsimp only at ok
      rw [unlocked_same used1] at ok
      obtain ⟨rfl,rfl⟩ := Prod.mk.inj (Except.ok.inj ok)
      obtain ⟨frame,stored⟩ := storeUser_frame { k2 with fs := ilock k2.fs (k2.file f).ip } p
        (statBytes (userMem { k2 with fs := ilock k2.fs (k2.file f).ip } p)
          (stati ((ilock k2.fs (k2.file f).ip).icache (k2.file f).ip))) statSize
      rw [stored]
      dsimp only
      rw [loaded.exhausted]
      exact settled2.enough

/-- Reading takes no block. -/
theorem Serving.frugal_idle (serving : Serving all kpgdir strict loose marks origin k)
    (bound : ∀ n, loose n → ∃ s, (s,n) ∈ marks) (neat : Safe Neat k) (enough : k.fs.exhausted = false) {call : Call} {q : Request}
    (asked : request k call = some q) (frugal : q.Frugal (service k)) (ok : dispatch data k call = .ok (r,k')) : k'.fs.exhausted = false := by
  have settled := serving.settled enough
  cases call with
  | open_ => exact sysOpen_idle settled bound neat asked frugal ok
  | mknod => exact sysMknod_idle settled asked frugal ok
  | read => exact sysRead_idle settled neat ok
  | write => exact sysWrite_idle settled neat asked frugal ok
  | close => exact sysClose_idle settled ok
  | fstat => exact sysFstat_idle settled ok
  | exec => cases asked

end calls

section booted
variable {files : List Input} {data : Nat} {k₀ k : State} {q : Request}

theorem Service.serve_frugal (s : Service) (frugal : q.Frugal s) : ∃ a t, s.serve q = .ok (a,t) := by
  cases q with
  | open_ path omode =>
    have old : omode.testBit 9 = false := frugal
    have opened : ∃ r, s.open_ path omode = .ok r := by
      unfold Service.open_
      rw [if_neg (by rw [old]; exact Bool.false_ne_true)]
      split
      · exact ⟨_,rfl⟩
      · split
        · exact ⟨_,rfl⟩
        · exact ⟨_,rfl⟩
    obtain ⟨r,ok⟩ := opened
    refine ⟨(r.1,.none),r.2,?_⟩
    change (s.open_ path omode).map _ = _
    rw [ok]
    rfl
  | mknod path major minor => exact frugal.elim
  | write fd src => exact ⟨_,_,rfl⟩
  | refused => exact ⟨_,_,rfl⟩
  | read fd n => exact ⟨_,_,rfl⟩
  | close fd => exact ⟨_,_,rfl⟩
  | fstat fd => exact ⟨_,_,rfl⟩

theorem Serving.frugal {all : List Page} {kpgdir : Page} {strict : Prop} {loose : Nat → Prop} {marks : List (Slot × Nat)}
    {origin : FsState} (serving : Serving all kpgdir strict loose marks origin k) (bound : ∀ n, loose n → ∃ s, (s,n) ∈ marks)
    (neat : Safe Neat k) (enough : k.fs.exhausted = false) {call : Call} (asked : request k call = some q) (frugal : q.Frugal (service k)) :
    ∃ r k', dispatch data k call = .ok (r,k') ∧ k'.fs.exhausted = false ∧
      (service k).serve q = .ok ((r,observed k' ((word k 1).getD 0) r q),service k') := by
  rcases serving.ends bound neat enough (by rw [asked]; exact Option.some_ne_none q) with ⟨r,k',ok⟩ | ⟨_,none⟩
  · have idle := serving.frugal_idle bound neat enough asked frugal ok
    exact ⟨r,k',ok,idle,(serving.dispatched bound ok idle asked).1⟩
  · obtain ⟨a,t,served⟩ := (service k).serve_frugal frugal
    rw [none q asked] at served
    cases served

theorem Booted.frugal (booted : Booted files data k₀) (ragged : (files.length + 2) % 32 ≠ 0) (run : Run data k₀ k)
    (enough : k.fs.exhausted = false) {call : Call} (asked : request k call = some q) (frugal : q.Frugal (service k)) :
    ∃ r k', dispatch data k call = .ok (r,k') ∧ k'.fs.exhausted = false ∧ k'.proc.sz = k.proc.sz ∧
      (service k).serve q = .ok ((r,observed k' ((word k 1).getD 0) r q),service k') := by
  obtain ⟨⟨all,kpgdir,serving⟩,_⟩ := booted.serving
  have now := (serving.run root_marked booted.linked run).1
  obtain ⟨r,k',ok,still,served⟩ := now.frugal root_marked ((booted.neat ragged).run neat_guard run) enough asked frugal
  exact ⟨r,k',ok,still,(remains_of_request now.safe ok (by rw [asked]; exact Option.some_ne_none q)).sz,served⟩

/-- A program whose memory is `mem` makes a call. -/
theorem Booted.calls (booted : Booted files data k₀) (ragged : (files.length + 2) % 32 ≠ 0) (run : Run data k₀ k)
    (enough : k.fs.exhausted = false) (size : k.proc.sz = 4096) {mem : Buffer} {call : Call}
    (asked : request (program mem k) call = some q) (frugal : q.Frugal (service k)) {r : Int} {out : Output} {s : Service}
    (served : (service k).serve q = .ok ((r,out),s)) : ∃ k', Observed data k none (program mem k) ∧
      Observed data (program mem k) (some (q,(r,out))) k' ∧ dispatch data (program mem k) call = .ok (r,k') ∧
        k'.fs.exhausted = false ∧ k'.proc.sz = 4096 ∧ service k' = s := by
  have user : Observed data k none (program mem k) := .user k _ _ _ k.fs.stack
  obtain ⟨r',k',ok,still,same,found⟩ := booted.frugal ragged (run.tail user.step) enough asked frugal
  obtain ⟨answer,after⟩ := Prod.mk.inj (Except.ok.inj (served.symm.trans found))
  have call := Observed.answered ok asked
  rw [← answer] at call
  rw [← (Prod.mk.inj answer).1] at ok
  exact ⟨k',user,call,ok,still,same.trans size,after.symm⟩

end booted

end Lxos.Files
