import Lxos.Files.Opening
import Lxos.Kernel.Chunks
import Lxos.Kernel.Offsets

/-! Every call does to the service that a state of the kernel stands for what the service
says. Which slots, table entries and blocks are used does not show. -/
namespace Lxos.Files
open Lxos.Bytes Lxos.Fs Lxos.Kernel Lxos.Outcome Lxos.Places

/-- The open file of a descriptor. -/
def desc (k : State) (f : FileId) : Desc :=
  ⟨(k.fs.icache (k.file f).ip).inum,(k.file f).readable,(k.file f).writable,(k.file f).off⟩

/-- The service in a state of the kernel. -/
def service (k : State) : Service where
  ninodes := k.fs.sb.ninodes
  node := nodes k.fs
  desc := fun fd => (k.proc.ofile fd).map (desc k)
  cwd := (k.fs.icache k.proc.cwd).inum

section service
variable {strict : Prop} {loose : Nat → Prop} {marks : List (Slot × Nat)} {origin fs : FsState} {hs : List Handle}
  {k k' t : State} {fd : Fin nofile} {f : FileId} {ip : Slot} {m : Mode}

/-- The handles stay, and so do all descriptors. -/
theorem service_moored (settled : Settled strict loose marks origin k) (tended : Tended strict loose k.moorings k.fs hs t.fs)
    (enough : t.fs.exhausted = false) (file : t.file = k.file) (ofile : t.proc.ofile = k.proc.ofile)
    (cwd : t.proc.cwd = k.proc.cwd) : service t = { service k with node := nodes t.fs } := by
  have kept := tended.kept enough
  have sb : t.fs.sb = k.fs.sb := kept.evolves.sb
  have here : (t.fs.icache k.proc.cwd).inum = (k.fs.icache k.proc.cwd).inum :=
    kept.marked _ (List.mem_map.mpr ⟨_,List.mem_cons_self,rfl⟩)
  ext1
  · exact congrArg Superblock.ninodes sb
  · rfl
  · funext a
    change (t.proc.ofile a).map (desc t) = (k.proc.ofile a).map (desc k)
    rw [ofile]
    refine Option.map_congr fun g named => ?_
    unfold desc
    rw [file]
    have number : (t.fs.icache (k.file g).ip).inum = (k.fs.icache (k.file g).ip).inum :=
      kept.marked _ (List.mem_map.mpr ⟨_,settled.safe.handle_mem named,rfl⟩)
    rw [number]
  · change (t.fs.icache t.proc.cwd).inum = _
    rw [cwd]
    exact here

/-- One open file changes. -/
theorem service_update (table : Table k.file k.proc.ofile) (named : k.proc.ofile fd = some f) {v : File}
    (file : k'.file = Function.update k.file f v) (ofile : k'.proc.ofile = k.proc.ofile) (cwd : k'.proc.cwd = k.proc.cwd)
    (inum : ∀ s, (k'.fs.icache s).inum = (k.fs.icache s).inum) (sb : k'.fs.sb = k.fs.sb) :
    service k' = { (service k).setDesc fd (some ⟨(k.fs.icache v.ip).inum,v.readable,v.writable,v.off⟩) with
      node := nodes k'.fs } := by
  ext1
  · exact congrArg Superblock.ninodes sb
  · rfl
  · funext a
    change (k'.proc.ofile a).map (desc k') = Function.update (service k).desc fd _ a
    rw [ofile]
    rcases eq_or_ne a fd with rfl | away
    · rw [named,Function.update_self]
      unfold desc
      dsimp only [Option.map]
      rw [file,Function.update_self,inum]
    · rw [Function.update_of_ne away]
      refine Option.map_congr fun g other => ?_
      have apart : g ≠ f := by
        rintro rfl
        exact away (table.distinct a fd g other named)
      unfold desc
      rw [file,Function.update_of_ne apart,inum]
  · change (k'.fs.icache k'.proc.cwd).inum = _
    rw [cwd,inum]
    rfl

theorem service_still (same : nodes fs = nodes k.fs) (inum : ∀ s, (fs.icache s).inum = (k.fs.icache s).inum)
    (sb : fs.sb = k.fs.sb) : service { k with fs := fs } = service k := by
  ext1
  · exact congrArg Superblock.ninodes sb
  · exact same
  · funext a
    refine Option.map_congr fun g _ => ?_
    unfold desc
    rw [inum]
  · exact inum _

/-- A new descriptor for a locked inode, or none. -/
theorem openFile_served (settled : Settled strict loose marks origin k) (bound : ∀ n, loose n → ∃ s, (s,n) ∈ marks)
    (inv : Tended strict loose k.moorings k.fs ((ip,m) :: k.moored) fs) (given : m ≠ .cwd) {omode : Nat} {r : Int × State}
    (ok : openFile { k with fs := fs } ip omode = r) (enough : r.2.fs.exhausted = false) :
    ({ service k with node := nodes fs } : Service).describe (fs.icache ip).inum omode = (r.1,service r.2) := by
  have guard := @tended_guard strict loose k.moorings k.fs (settled.bound bound)
  have vacant : (fun fd => (({ service k with node := nodes fs } : Service).desc fd).isNone) =
      fun fd => (k.proc.ofile fd).isNone := by
    funext fd
    exact Option.isNone_map
  unfold Service.describe
  rw [vacant]
  rcases openFile_first (k := { k with fs := fs }) settled.safe.table ip omode with ⟨full,failed⟩ | ⟨fd,f,found,zero,opened⟩
  · rw [ok] at failed
    subst failed
    dsimp only at enough full ⊢
    have reader := guard.reader inv given
    have last := guard.unlockput reader
    have before := exhausted_of_suffix (iunlockput_trace fs ip) enough
    have same := (nodes_released reader (settled.bound bound) before).1
    generalize iunlockput fs ip = fs' at enough last same
    have still := service_moored (t := { k with fs := fs' }) settled last enough rfl rfl rfl
    rw [full,still]
    dsimp only
    rw [same]
  · rw [ok] at opened
    subst opened
    have used : 0 < (fs.icache ip).ref := inv.counted.used List.mem_cons_self
    have unlocked : iunlock fs ip = fs := if_neg (by omega)
    dsimp only at found enough ⊢
    rw [unlocked] at enough ⊢
    have free (a : Fin nofile) : k.proc.ofile a ≠ some f := fun named => by
      have one := (settled.safe.table.taken a f named).1
      dsimp only at zero
      omega
    have still := service_moored (t := { k with fs := fs }) settled inv enough rfl rfl rfl
    rw [found,← still]
    refine Prod.ext rfl ?_
    ext1
    · rfl
    · rfl
    · funext a
      change Function.update (service { k with fs := fs }).desc fd _ a = Option.map _ (Function.update k.proc.ofile fd (some f) a)
      rcases eq_or_ne a fd with rfl | away
      · rw [Function.update_self,Function.update_self]
        unfold desc
        dsimp only [Option.map]
        rw [Function.update_self]
        rfl
      · rw [Function.update_of_ne away,Function.update_of_ne away]
        refine Option.map_congr fun g named => ?_
        have apart : g ≠ f := fun same => free a (same ▸ named)
        unfold desc
        dsimp only
        rw [Function.update_of_ne apart]
    · rfl

end service

section calls
variable {strict : Prop} {loose : Nat → Prop} {marks : List (Slot × Nat)} {origin : FsState}
  {k k' : State} {fd : Fin nofile} {f : FileId} {r : Int} {path : List Byte}

theorem openFile_trace (table : Table k.file k.proc.ofile) (ip : Slot) (omode : Nat) :
    k.fs.trace <:+ (openFile k ip omode).2.fs.trace := by
  rcases openFile_first table ip omode with ⟨_,failed⟩ | ⟨fd,f,_,_,opened⟩
  · rw [failed]
    exact iunlockput_trace k.fs ip
  · rw [opened]
    exact (iunlock_calm k.fs ip).trace

theorem openPath_served (settled : Settled strict loose marks origin k) (loose_bound : ∀ n, loose n → ∃ s, (s,n) ∈ marks)
    (string : 0 ∉ path) {omode : Nat} (ok : openPath k path omode = .ok (r,k')) (enough : k'.fs.exhausted = false) :
    (service k).open_ path omode = .ok (r,service k') := by
  have bound := settled.bound loose_bound
  have guard := @tended_guard strict loose k.moorings k.fs bound
  have moor := settled.safe.moor
  obtain ⟨room,here⟩ := settled.moorage
  unfold openPath at ok
  unfold Service.open_
  split at ok
  · rename_i new
    rw [if_pos new]
    have created := guard.create moor room here path (by decide : tFile ≠ 0) (by decide : tFile ≠ tDir) 0 0
    cases creating : create k.fs k.proc.cwd path tFile 0 0 with
    | error e =>
      rw [creating] at ok
      cases ok
    | ok answer =>
      replace created := created.elim creating
      have served := create_served (s := service k) moor bound room here string (by decide : tFile ≠ 0)
        (by decide : tFile ≠ tDir) rfl rfl rfl creating
      rw [creating] at ok
      obtain ⟨_ | ip,fs⟩ := answer
      · obtain ⟨rfl,rfl⟩ := Prod.mk.inj (Except.ok.inj ok)
        rw [served enough]
        dsimp only [Option.map] at created ⊢
        rw [service_moored (t := { k with fs := fs }) settled created enough rfl rfl rfl]
      · have opened : openFile { k with fs := fs } ip omode = (r,k') := Except.ok.inj ok
        have trace := @openFile_trace { k with fs := fs } settled.safe.table ip omode
        rw [opened] at trace
        rw [served (exhausted_of_suffix trace enough)]
        dsimp only [Option.map] at created ⊢
        rw [openFile_served settled loose_bound created (by decide) opened enough]
  · rename_i old
    rw [if_neg old]
    have quiet : Quiet strict loose k.moorings k.fs k.moored k.fs := ⟨moor,fun _ => rfl⟩
    have reader := @quiet_reader strict loose k.moorings k.fs bound
    have found := reader.namei quiet room here path
    cases walk : namei k.fs k.proc.cwd path with
    | error e =>
      rw [walk] at ok
      cases ok
    | ok answer =>
      replace found := found.elim walk
      have resolved := namei_resolved (s := service k) moor bound room here string rfl rfl walk
      rw [walk] at ok
      obtain ⟨_ | ip,fs⟩ := answer
      · obtain ⟨rfl,rfl⟩ := Prod.mk.inj (Except.ok.inj ok)
        obtain ⟨none,same⟩ := resolved enough
        have still := service_moored (t := { k with fs := fs }) settled found.tended enough rfl rfl rfl
        dsimp only [Option.map] at none same still
        rw [← none,still,same]
        rfl
      · have locked := reader.lock found List.mem_cons_self
        have valid := ilock_valid fs ip
        have number := (ilock_calm fs ip).inum ip
        have lock := (ilock_calm fs ip).trace
        dsimp only at ok resolved locked
        generalize ilock fs ip = fs' at ok locked valid number lock
        -- What the walk found, once blocks are known to last.
        have known (enough' : fs'.exhausted = false) : (service k).resolve path = some (fs'.icache ip).inum ∧
            ((service k).node (fs'.icache ip).inum).type = (fs'.icache ip).type ∧ nodes fs' = nodes k.fs := by
          refine ⟨?_,locked.kind enough' List.mem_cons_self valid,locked.same enough'⟩
          rw [number,← (resolved (exhausted_of_suffix lock enough')).1]
          rfl
        split at ok
        · rename_i directory
          obtain ⟨rfl,rfl⟩ := Prod.mk.inj (Except.ok.inj ok)
          dsimp only at enough
          have enough' := exhausted_of_suffix (iunlockput_trace fs' ip) enough
          obtain ⟨there,kind,same⟩ := known enough'
          have last := reader.unlockput locked
          have same := last.same enough
          generalize iunlockput fs' ip = fs'' at enough last same
          have still := service_moored (t := { k with fs := fs'' }) settled last.tended enough rfl rfl rfl
          dsimp only at still
          rw [there,still,same]
          dsimp only
          rw [kind,if_pos directory]
          rfl
        · rename_i plain
          have opened : openFile { k with fs := fs' } ip omode = (r,k') := Except.ok.inj ok
          have trace := @openFile_trace { k with fs := fs' } settled.safe.table ip omode
          rw [opened] at trace
          obtain ⟨there,kind,same⟩ := known (exhausted_of_suffix trace enough)
          have served := openFile_served settled loose_bound locked.tended (by decide) opened enough
          rw [there]
          dsimp only
          rw [kind,if_neg plain,← served,same]
          rfl

theorem mknodPath_served (settled : Settled strict loose marks origin k) (bound : ∀ n, loose n → ∃ s, (s,n) ∈ marks)
    (string : 0 ∉ path) {major minor : Nat} (ok : mknodPath k path major minor = .ok (r,k')) (enough : k'.fs.exhausted = false) :
    (service k).mknod path major minor = .ok (r,service k') := by
  have guard := @tended_guard strict loose k.moorings k.fs (settled.bound bound)
  have moor := settled.safe.moor
  have bound := settled.bound bound
  obtain ⟨room,here⟩ := settled.moorage
  unfold mknodPath at ok
  unfold Service.mknod
  have created := guard.create moor room here path (by decide : tDev ≠ 0) (by decide : tDev ≠ tDir)
    (BitVec.ofNat 16 major) (BitVec.ofNat 16 minor)
  cases creating : create k.fs k.proc.cwd path tDev (BitVec.ofNat 16 major) (BitVec.ofNat 16 minor) with
  | error e =>
    rw [creating] at ok
    cases ok
  | ok answer =>
    replace created := created.elim creating
    have served := create_served (s := service k) moor bound room here string (by decide : tDev ≠ 0)
      (by decide : tDev ≠ tDir) rfl rfl rfl creating
    rw [creating] at ok
    obtain ⟨_ | ip,fs⟩ := answer
    · obtain ⟨rfl,rfl⟩ := Prod.mk.inj (Except.ok.inj ok)
      rw [served enough]
      dsimp only [Option.map] at created ⊢
      rw [service_moored (t := { k with fs := fs }) settled created enough rfl rfl rfl]
    · obtain ⟨rfl,rfl⟩ := Prod.mk.inj (Except.ok.inj ok)
      dsimp only at enough created
      have before := exhausted_of_suffix (iunlockput_trace fs ip) enough
      rw [served before]
      have given := guard.reader created (by decide)
      have last := guard.unlockput given
      have same := (nodes_released given bound before).1
      dsimp only [Option.map]
      generalize iunlockput fs ip = fs' at enough last same
      rw [service_moored (t := { k with fs := fs' }) settled last enough rfl rfl rfl]
      dsimp only
      rw [same]

theorem service_lookup (named : k.proc.ofile fd = some f) : (service k).lookup fd.val = some (fd,desc k f) := by
  unfold Service.lookup
  rw [dif_pos fd.isLt]
  change ((k.proc.ofile fd).map (desc k)).map _ = _
  rw [named]
  rfl

theorem service_locked (settled : Settled strict loose marks origin k) (named : k.proc.ofile fd = some f) :
    service { k with fs := ilock k.fs (k.file f).ip } = service k := by
  obtain ⟨_,_,volume,_⟩ := settled.locked named
  exact service_still (nodes_congr volume) (ilock_calm _ _).inum
    (ilock_loaded (settled.orderly.lawful.named (settled.used named))).sb

theorem fileread_vm (readable : (k.file f).readable = true) (type : (k.file f).type = .inode) (addr n : Nat) :
    (fileread k f addr n).2.vm =
      (storeUser k addr (readi (ilock k.fs (k.file f).ip) (k.file f).ip (userMem k addr) (k.file f).off n).2.1
        (readi (ilock k.fs (k.file f).ip) (k.file f).ip (userMem k addr) (k.file f).off n).1.toNat).vm := by
  unfold fileread
  dsimp only
  rw [if_neg (by rw [readable]; decide),if_pos type]
  generalize readi (ilock k.fs (k.file f).ip) (k.file f).ip (userMem k addr) (k.file f).off n = result
  obtain ⟨c,dst,fs⟩ := result
  have same := @storeUser_vm c.toNat k { k with fs := fs } dst dst rfl rfl addr fun _ _ => rfl
  dsimp only
  split
  · exact same
  · exact same

theorem moved_nat {off c : Nat} (low : off + c ≤ 71680) : moved off (c : Int) = off + c := by
  unfold moved
  split
  · rw [Int.toNat_natCast,u32_of_lt (by omega)]
  · omega

theorem Service.setDesc_same {s : Service} {d : Desc} (here : s.desc fd = some d) : s.setDesc fd (some d) = s := by
  unfold Service.setDesc
  rw [← here,Function.update_eq_self]

theorem service_desc (named : k.proc.ofile fd = some f) : (service k).desc fd = some (desc k f) := by
  change (k.proc.ofile fd).map (desc k) = _
  rw [named]
  rfl

/-- `fileread` delivers the bytes of the node from the offset on, and moves the offset. -/
theorem fileread_served (settled : Settled strict loose marks origin k) (named : k.proc.ofile fd = some f) {addr n : Nat}
    (width : n < 2147483648) (ok : fileread k f addr n = (r,k')) (enough : k'.fs.exhausted = false) :
    ((service k).read fd n).1 = r ∧ ((service k).read fd n).2.2 = service k' ∧
      k'.vm = (storeUser k addr (bytes ((service k).read fd n).2.1) ((service k).read fd n).2.1.length).vm := by
  unfold Service.read
  rw [service_lookup named]
  dsimp only
  cases readable : (k.file f).readable with
  | false =>
    have refused : fileread k f addr n = (-1,k) := if_pos readable
    obtain ⟨rfl,rfl⟩ := Prod.mk.inj (refused.symm.trans ok)
    have first : (desc k f).readable = false := readable
    rw [if_pos (Or.inl first)]
    exact ⟨rfl,rfl,rfl⟩
  | true =>
    have type := (settled.safe.handle named).1
    obtain ⟨frame,form⟩ := fileread_form readable type addr n
    have vm := fileread_vm readable type addr n
    obtain ⟨lawful,ready,volume,number⟩ := settled.locked named
    have reading := (readi_mapped (ilock k.fs (k.file f).ip) (k.file f).ip (userMem k addr) (k.file f).off n).toLocal.calm
    have seeing := @readi_seen rootdev (k.file f).ip (ilock k.fs (k.file f).ip) ready (userMem k addr) (k.file f).off n (by omega)
    have lock := ilock_calm k.fs (k.file f).ip
    have sb := (ilock_loaded (settled.orderly.lawful.named (settled.used named))).sb
    rw [ok] at form vm
    obtain ⟨rfl,rfl⟩ := Prod.mk.inj form
    dsimp only at vm enough ⊢
    generalize readi (ilock k.fs (k.file f).ip) (k.file f).ip (userMem k addr) (k.file f).off n = out
      at vm enough reading seeing ⊢
    obtain ⟨c,dst,fs⟩ := out
    dsimp only at vm enough reading seeing ⊢
    have used : 0 < (fs.icache (k.file f).ip).ref := by
      rw [reading.ref,lock.ref]
      exact settled.used named
    have unlocked : iunlock fs (k.file f).ip = fs := if_neg (by omega)
    rw [unlocked] at enough ⊢
    obtain ⟨seen,value⟩ := seeing (Or.inr enough)
    have same : nodes fs = nodes k.fs := (nodes_seen seen).trans (nodes_congr volume)
    have grown_sb : fs.sb = (ilock k.fs (k.file f).ip).sb := seen.grown.frame.sb
    rw [volume,number] at value
    have updated := @service_update k { k with
      fs := fs
      vm := { k.vm with frame := frame }
      file := Function.update k.file f { k.file f with off := moved (k.file f).off c } } fd f settled.safe.table named
      { k.file f with off := moved (k.file f).off c } rfl rfl rfl (fun s => (reading.inum s).trans (lock.inum s))
      (grown_sb.trans sb)
    rw [updated]
    dsimp only at vm ⊢
    rw [vm,same]
    have kind : ((service k).node (desc k f).inum).type = (k.inode (k.file f).ip).type := rfl
    by_cases device : (k.inode (k.file f).ip).type = tDev
    · rw [if_pos (Or.inr (kind.trans device))]
      have refused : readResult (k.inode (k.file f).ip) ((k.fs.volume rootdev).byte (k.fs.icache (k.file f).ip).inum)
        (userMem k addr) (k.file f).off n = (-1,userMem k addr) := if_pos device
      obtain ⟨rfl,rfl⟩ := Prod.mk.inj (value.trans refused)
      exact ⟨rfl,(Service.setDesc_same (service_desc named)).symm,rfl⟩
    · have plain : ¬((desc k f).readable = false ∨ ((service k).node (desc k f).inum).type = tDev) := by
        rintro (wrong | wrong)
        · exact absurd (readable.symm.trans wrong) (by decide)
        · exact device wrong
      rw [if_neg plain]
      have within := settled.offsets fd f named device
      have small : (k.inode (k.file f).ip).size.toNat ≤ 71680 := settled.orderly.lawful.volume.small _
      have left := readResult_left ((k.fs.volume rootdev).byte (k.fs.icache (k.file f).ip).inum) (userMem k addr) device within
        small (by omega : n < 4294967296)
      rw [if_pos (by omega)] at left
      obtain ⟨rfl,rfl⟩ := Prod.mk.inj (value.trans left)
      have length : ((service k).node (desc k f).inum).data.length = (k.inode (k.file f).ip).size.toNat := node_length
      have count : (((((service k).node (desc k f).inum).data.drop (desc k f).off).take n).length : Nat) =
          min n ((k.inode (k.file f).ip).size.toNat - (k.file f).off) := by
        rw [part_length,length]
        rfl
      dsimp only
      rw [count]
      refine ⟨rfl,?_,storeUser_vm rfl rfl addr fun i low => ?_⟩
      · rw [moved_nat (by omega)]
        rfl
      · rw [Int.toNat_natCast] at low
        have first := @blit_inside (userMem k addr) (fun i => (k.fs.volume rootdev).byte (k.fs.icache (k.file f).ip).inum
          ((k.file f).off + i)) 0 _ i low
        have inside : (k.file f).off + i < (k.inode (k.file f).ip).size.toNat := by omega
        rw [Nat.zero_add] at first
        rw [first,bytes_part (by omega)]
        exact (node_byte inside).symm

theorem ilock_again {fs : FsState} {ip : Slot} (used : 0 < (fs.icache ip).ref) : ilock (ilock fs ip) ip = ilock fs ip := by
  have again : ¬((ilock fs ip).icache ip).ref < 1 := by
    rw [(ilock_calm fs ip).ref]
    omega
  have valid := ilock_valid fs ip
  generalize ilock fs ip = st at again valid ⊢
  unfold ilock
  rw [if_neg again]
  exact if_pos valid

theorem writei_chunk {fs : FsState} {ip : Slot} {src : Buffer} {off n : Nat} (device : (fs.icache ip).type = tDev)
    (small : n < 2147483648) : writei fs ip src off n = (if (fs.icache ip).major = 1 then (n : Int) else -1,fs) := by
  have answer : (writei fs ip src off n).1 = _ := writei_answer device
  rw [int32_of_lt small] at answer
  exact Prod.ext answer (writei_device device)

/-- The console takes one chunk after the other. -/
theorem filewriteLoop_console {addr n fuel i : Nat} (used : 0 < (k.fs.icache (k.file f).ip).ref)
    (locked : ilock k.fs (k.file f).ip = k.fs) (device : (k.fs.icache (k.file f).ip).type = tDev)
    (screen : (k.fs.icache (k.file f).ip).major = 1) (within : i < n) (enough : n < i + fuel) :
    filewriteLoop f addr n fuel k i =
      .ok (n,k.setFile f { k.file f with off := u32 ((k.file f).off + (n - i)) }) := by
  induction fuel generalizing k i with
  | zero => omega
  | succ fuel ih =>
    have unlocked : iunlock k.fs (k.file f).ip = k.fs := if_neg (by omega)
    have small : min (n - i) writeMax < 2147483648 := by
      change min (n - i) 1536 < _
      omega
    have size : 0 < min (n - i) writeMax ∧ min (n - i) writeMax ≤ n - i := by
      change 0 < min (n - i) 1536 ∧ _
      omega
    unfold filewriteLoop
    dsimp only
    rw [if_pos within,locked,writei_chunk device small,if_pos screen]
    generalize min (n - i) writeMax = c at size ⊢
    dsimp only [State.setFile]
    rw [if_pos (by omega : (c : Int) > 0),if_neg (by omega : ¬(c : Int) < 0),if_neg (not_not.mpr rfl),Int.toNat_natCast,unlocked]
    have self : Function.update k.file f { k.file f with off := u32 ((k.file f).off + c) } f =
      { k.file f with off := u32 ((k.file f).off + c) } := Function.update_self _ _ _
    rcases Nat.lt_or_ge (i + c) n with more | last
    · have next := @ih { k with file := Function.update k.file f { k.file f with off := u32 ((k.file f).off + c) } } (i + c)
      dsimp only [State.setFile] at next
      rw [self] at next
      have sum : u32 (u32 ((k.file f).off + c) + (n - (i + c))) = u32 ((k.file f).off + (n - i)) := by
        unfold u32
        omega
      rw [next used locked device screen more (by omega),Function.update_idem,sum]
    · obtain rfl : i + c = n := by omega
      have done : filewriteLoop f addr (i + c) fuel { k with
          file := Function.update k.file f { k.file f with off := u32 ((k.file f).off + c) } } (i + c) =
          .ok ((i + c : Nat),{ k with file := Function.update k.file f { k.file f with off := u32 ((k.file f).off + c) } }) := by
        cases fuel with
        | zero => omega
        | succ fuel =>
          unfold filewriteLoop
          rw [if_neg (lt_irrefl _),if_pos rfl]
      rw [done,Nat.add_sub_cancel_left]

/-- What is written to a device: only the console takes it. -/
theorem filewrite_device {addr n : Nat} (named : Named rootdev (k.file f).ip k.fs) (type : (k.file f).type = .inode)
    (writable : (k.file f).writable = true) (device : ((ilock k.fs (k.file f).ip).icache (k.file f).ip).type = tDev) :
    filewrite k f addr n = .ok (if n = 0 then (0,k)
      else if ((ilock k.fs (k.file f).ip).icache (k.file f).ip).major = 1 then
        (n,{ k with fs := ilock k.fs (k.file f).ip }.setFile f { k.file f with off := u32 ((k.file f).off + n) })
      else (-1,{ k with fs := ilock k.fs (k.file f).ip })) := by
  have again := ilock_again named.ref
  have used : 0 < ((ilock k.fs (k.file f).ip).icache (k.file f).ip).ref := by
    rw [(ilock_calm k.fs (k.file f).ip).ref]
    exact named.ref
  have unlocked : iunlock (ilock k.fs (k.file f).ip) (k.file f).ip = ilock k.fs (k.file f).ip := if_neg (by omega)
  unfold filewrite
  dsimp only
  rw [if_neg (by rw [writable]; decide),if_pos type]
  rcases Nat.eq_zero_or_pos n with rfl | some
  · rfl
  · rw [if_neg (by omega : ¬n = 0)]
    by_cases screen : ((ilock k.fs (k.file f).ip).icache (k.file f).ip).major = 1
    · have loop := @filewriteLoop_console { k with fs := ilock k.fs (k.file f).ip } f addr n (n + 1) 0 used again device screen
        some (by omega)
      rw [if_pos screen]
      -- The first round finds the inode locked or locks it.
      have same : filewriteLoop f addr n (n + 1) k 0 = filewriteLoop f addr n (n + 1) { k with fs := ilock k.fs (k.file f).ip } 0 := by
        unfold filewriteLoop
        dsimp only
        rw [if_pos some,if_pos some,again]
        rfl
      exact same.trans loop
    · have small : min (n - 0) writeMax < 2147483648 := by
        change min (n - 0) 1536 < _
        omega
      unfold filewriteLoop
      dsimp only
      rw [if_pos some,writei_chunk device small,if_neg screen]
      dsimp only
      rw [if_neg (by decide : ¬(-1 : Int) > 0),if_pos (by decide : (-1 : Int) < 0)]
      dsimp only
      rw [unlocked,if_neg screen]

/-- `filewrite` lays the bytes over the data of the node, as far as they fit. -/
theorem filewrite_served (settled : Settled strict loose marks origin k) (named : k.proc.ofile fd = some f)
    (types : ∀ i, (nodes k.fs i).type = 0 ∨ (nodes k.fs i).type = tDir ∨ (nodes k.fs i).type = tFile ∨ (nodes k.fs i).type = tDev)
    {addr n : Nat} (ok : filewrite k f addr n = .ok (r,k')) (enough : k'.fs.exhausted = false) :
    (service k).write fd (taken (userMem k addr) n) = (r,service k') ∧ k'.vm = k.vm := by
  unfold Service.write
  rw [service_lookup named]
  dsimp only
  cases writable : (k.file f).writable with
  | false =>
    have refused : filewrite k f addr n = .ok (-1,k) := if_pos writable
    obtain ⟨rfl,rfl⟩ := Prod.mk.inj (Except.ok.inj (refused.symm.trans ok))
    have first : (desc k f).writable = false := writable
    rw [if_pos first]
    exact ⟨rfl,rfl⟩
  | true =>
    have allowed : ¬(desc k f).writable = false := by
      change ¬(k.file f).writable = false
      rw [writable]
      decide
    rw [if_neg allowed]
    have lawful := settled.orderly.lawful
    have type := (settled.safe.handle named).1
    have names := lawful.named (settled.used named)
    have kind : ((service k).node (desc k f).inum).type = (k.inode (k.file f).ip).type := rfl
    by_cases device : (k.inode (k.file f).ip).type = tDev
    · obtain ⟨_,ready,volume,number⟩ := settled.locked named
      have copy := ready.copy
      rw [volume,number] at copy
      have loaded : ((ilock k.fs (k.file f).ip).icache (k.file f).ip).type = tDev := by
        rw [← copy]
        exact device
      have major : ((service k).node (desc k f).inum).major = ((ilock k.fs (k.file f).ip).icache (k.file f).ip).major :=
        congrArg Dinode.major copy
      rw [filewrite_device names type writable loaded] at ok
      rw [if_pos (kind.trans device)]
      unfold Service.writeDevice
      rw [major]
      rcases Nat.eq_zero_or_pos n with rfl | some
      · obtain ⟨rfl,rfl⟩ := Prod.mk.inj (Except.ok.inj ok)
        exact ⟨rfl,rfl⟩
      · have bytes : taken (userMem k addr) n ≠ [] := List.ne_nil_of_length_pos (by rw [taken_length]; exact some)
        rw [if_neg (by omega : ¬n = 0)] at ok
        rw [if_neg bytes,taken_length]
        split at ok
        · rename_i screen
          obtain ⟨rfl,rfl⟩ := Prod.mk.inj (Except.ok.inj ok)
          rw [if_pos screen]
          refine ⟨Prod.ext rfl ?_,rfl⟩
          have loaded := ilock_loaded names
          have updated := @service_update k ({ k with fs := ilock k.fs (k.file f).ip }.setFile f { k.file f with
            off := u32 ((k.file f).off + n) }) fd f settled.safe.table named _ rfl rfl rfl (ilock_calm _ _).inum loaded.sb
          rw [updated]
          have same : nodes (ilock k.fs (k.file f).ip) = nodes k.fs := nodes_congr volume
          change _ = { (service k).setDesc fd _ with node := nodes (ilock k.fs (k.file f).ip) }
          rw [same]
          rfl
        · rename_i other
          obtain ⟨rfl,rfl⟩ := Prod.mk.inj (Except.ok.inj ok)
          rw [if_neg other,service_locked settled named]
          exact ⟨rfl,rfl⟩
    · rw [if_neg fun wrong => device (kind.symm.trans wrong)]
      have member := settled.safe.handle_mem named
      rw [writable,if_pos rfl] at member
      have file : k.dinode rootdev f = k.inode (k.file f).ip := rfl
      have regular : (k.inode (k.file f).ip).type = tFile := by
        have in_use := settled.in_use named
        have directory := settled.orderly.files _ member
        rcases types (k.fs.icache (k.file f).ip).inum with zero | dir | plain | dev
        · exact absurd zero in_use
        · exact absurd dir directory
        · exact plain
        · exact absurd dev device
      have within := settled.offsets fd f named device
      have opened : Opened rootdev f k := ⟨type,names,lawful.volume.sound,regular,within,lawful.volume.small _⟩
      obtain ⟨c,k1,written,_,spec⟩ := filewrite_put opened writable addr n
      obtain ⟨rfl,rfl⟩ := Prod.mk.inj (Except.ok.inj (written.symm.trans ok))
      obtain ⟨vm,whole,partly⟩ := spec enough
      -- However much was put.
      have put {m : Nat} (part : Put rootdev f (userMem k addr) m m k k1) :
          ((service k).setNode (desc k f).inum { (service k).node (desc k f).inum with
            data := overlay ((service k).node (desc k f).inum).data (desc k f).off (taken (userMem k addr) m) }).setDesc fd
              (some { desc k f with off := (desc k f).off + m }) = service k1 := by
        rw [service_update settled.safe.table named part.file (by rw [part.proc]) (by rw [part.proc]) part.fs.calm.inum part.fs.sb,
          nodes_overlaid part.fs within]
        rfl
      refine ⟨?_,vm⟩
      rcases Nat.lt_or_ge 71680 ((k.file f).off + n) with past | room
      · obtain ⟨rfl,part⟩ := partly past
        have limit : (k.file f).off ≤ 71680 := opened.within.trans opened.small
        have less : 1536 * ((71680 - (k.file f).off) / 1536) < n := by omega
        have fits : Service.fitting (desc k f).off (taken (userMem k addr) n) =
            taken (userMem k addr) (1536 * ((71680 - (k.file f).off) / 1536)) := by
          unfold Service.fitting
          rw [taken_length]
          exact (if_neg (Nat.not_le.mpr past)).trans (taken_take (Nat.le_of_lt less))
        rw [fits,taken_length,taken_length,if_neg (Nat.ne_of_lt less),put part]
      · obtain ⟨rfl,part⟩ := whole room
        have fits : Service.fitting (desc k f).off (taken (userMem k addr) n) = taken (userMem k addr) n := by
          unfold Service.fitting
          rw [taken_length]
          exact if_pos room
        rw [fits,taken_length,if_pos rfl,put part]

/-- `sys_close` from the file on. -/
theorem close_served (settled : Settled strict loose marks origin k) (bound : ∀ n, loose n → ∃ s, (s,n) ∈ marks)
    (named : k.proc.ofile fd = some f) : (service k).close fd =
      (0,service (fileclose { k with proc := { k.proc with ofile := Function.update k.proc.ofile fd none } } f)) := by
  obtain ⟨one,type⟩ := settled.safe.table.taken fd f named
  have closed := fileclose_last
    (k := { k with proc := { k.proc with ofile := Function.update k.proc.ofile fd none } }) one
  rw [if_pos type] at closed
  have guard := @tended_guard strict loose marks origin bound
  have apart := guard.perm settled.safe.inv (handles_take (settled.safe.handle named).2 (v := { k.file f with ref := 0,type := .none })
    (by simp [File.handle]))
  have given := guard.reader apart (by split <;> decide)
  have used := settled.used named
  have lawful := settled.orderly.lawful
  have volume := (lawful.iput used (given.stays bound (given.kept settled.enough))).1
  have inum (s : Slot) : ((iput k.fs (k.file f).ip).icache s).inum = (k.fs.icache s).inum := by
    rw [lawful.iput_eq used]
    exact (recount_field k.fs _ _ s).2.1
  have sb : (iput k.fs (k.file f).ip).sb = k.fs.sb := by
    rw [lawful.iput_eq used]
    rfl
  unfold Service.close
  rw [service_lookup named,closed]
  refine Prod.ext rfl ?_
  dsimp only [State.setFile]
  generalize iput k.fs (k.file f).ip = fs at volume inum sb
  ext1
  · exact congrArg Superblock.ninodes sb.symm
  · exact (nodes_congr volume).symm
  · funext a
    change Function.update (service k).desc fd none a = Option.map _ (Function.update k.proc.ofile fd none a)
    rcases eq_or_ne a fd with rfl | away
    · rw [Function.update_self,Function.update_self]
      rfl
    · rw [Function.update_of_ne away,Function.update_of_ne away]
      refine (Option.map_congr fun g other => ?_).symm
      have other_file : g ≠ f := by
        rintro rfl
        exact away (settled.safe.table.distinct a fd g other named)
      unfold desc
      dsimp only
      rw [Function.update_of_ne other_file,inum]
  · exact (inum _).symm

/-- `filestat` tells the attributes of the node. -/
theorem filestat_served (settled : Settled strict loose marks origin k) (named : k.proc.ofile fd = some f) :
    filestat k f = (((service k).fstat fd).1,((service k).fstat fd).2,{ k with fs := ilock k.fs (k.file f).ip }) := by
  obtain ⟨lawful,ready,volume,number⟩ := settled.locked named
  have names := settled.orderly.lawful.named (settled.used named)
  have unlocked := iunlock_named ((ilock_calm k.fs (k.file f).ip).named (ilock_loaded names).sb names)
  have copy := ready.copy
  rw [volume,number] at copy
  have device : ((ilock k.fs (k.file f).ip).icache (k.file f).ip).dev = rootdev :=
    ((ilock_calm k.fs (k.file f).ip).dev _).trans names.dev
  have size : BitVec.ofNat 32 ((service k).node (desc k f).inum).data.length =
      ((ilock k.fs (k.file f).ip).icache (k.file f).ip).size := by
    have length : ((service k).node (desc k f).inum).data.length = (k.inode (k.file f).ip).size.toNat := node_length
    rw [length,BitVec.ofNat_toNat,BitVec.setWidth_eq]
    exact congrArg Dinode.size copy
  unfold filestat Service.fstat
  rw [service_lookup named,if_pos (settled.safe.handle named).1]
  dsimp only
  rw [unlocked,size]
  unfold stati
  rw [device,number]
  refine Prod.ext rfl (Prod.ext (congrArg some ?_) rfl)
  rw [← congrArg Dinode.type copy,← congrArg Dinode.nlink copy]
  rfl

theorem exec_served (settled : Settled strict loose marks origin k) (bound : ∀ n, loose n → ∃ s, (s,n) ∈ marks) {data : Nat}
    {path : Nat × Nat} {argv : List (Nat × Nat)} (ok : exec data k path argv = .ok (r,k')) (enough : k'.fs.exhausted = false) :
    service k' = service k := by
  have reader := @quiet_reader strict loose k.moorings k.fs (settled.bound bound)
  obtain ⟨room,here⟩ := settled.moorage
  have quiet : Quiet strict loose k.moorings k.fs k.moored k.fs := ⟨settled.safe.moor,fun _ => rfl⟩
  have stays := (reader.exec quiet room here data path argv).elim ok
  have still := service_moored settled stays.inv.tended enough stays.file stays.ofile stays.cwd
  rw [still,stays.inv.same enough]
  rfl

end calls

end Lxos.Files
