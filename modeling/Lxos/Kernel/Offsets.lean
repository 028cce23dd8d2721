import Lxos.Kernel.Tended

/-! Offsets of open files. A file that stays open keeps its inode, no inode becomes
shorter, and whatever moves an offset moves it within the size, so that no offset ever
passes the end. -/
namespace Lxos.Kernel
open Lxos.Bytes Lxos.Fs Lxos.Outcome

/-- The inode in a slot, as the volume has it. -/
def State.inode (k : State) (ip : Slot) : Dinode := (k.fs.volume rootdev).inode (k.fs.icache ip).inum

/-- A file that is no device has its offset within its size. -/
def Within (k : State) (f : FileId) : Prop :=
  (k.inode (k.file f).ip).type ≠ tDev → (k.file f).off ≤ (k.inode (k.file f).ip).size.toNat

def Offsets (k : State) : Prop := ∀ a f, k.proc.ofile a = some f → Within k f

/-- From `k` to `k'` the open files keep their inodes, and an offset that moves is
within the old size or the new one. -/
structure Onward (k k' : State) : Prop where
  number : ∀ a f, k.proc.ofile a = some f → (k'.fs.icache (k.file f).ip).inum = (k.fs.icache (k.file f).ip).inum
  evolves : (k.fs.volume rootdev).Evolves (k'.fs.volume rootdev)
  moves : ∀ a f, k'.proc.ofile a = some f → Within k' f ∨ (∃ b, k.proc.ofile b = some f) ∧
    (k'.file f).ip = (k.file f).ip ∧
    ((k.inode (k.file f).ip).type ≠ tDev → (k'.file f).off ≤ (k.inode (k.file f).ip).size.toNat)

/-- A state reached while blocks last. -/
structure Settled (strict : Prop) (loose : Nat → Prop) (marks : List (Slot × Nat)) (origin : FsState) (k : State) : Prop where
  safe : Safe (Tended strict loose marks origin) k
  enough : k.fs.exhausted = false
  offsets : Offsets k

/-- What is held between two calls, and where it has to stay. -/
def State.moored (k : State) : List Handle := k.handles.map fun h => (h.1,.cwd)

def State.moorings (k : State) : List (Slot × Nat) := k.handles.map fun h => (h.1,(k.fs.icache h.1).inum)

section offsets
variable {strict : Prop} {loose : Nat → Prop} {marks : List (Slot × Nat)} {origin st : FsState} {hs : List Handle}
  {k k' : State} {f : FileId} {fd : Fin nofile} {ip : Slot}

theorem Settled.orderly (settled : Settled strict loose marks origin k) :
    Orderly strict loose marks origin k.handles k.fs := settled.safe.inv.kept settled.enough

theorem Settled.used (settled : Settled strict loose marks origin k) (named : k.proc.ofile fd = some f) :
    0 < (k.fs.icache (k.file f).ip).ref := settled.safe.inv.counted.used (settled.safe.handle_mem named)

theorem Settled.in_use (settled : Settled strict loose marks origin k) (named : k.proc.ofile fd = some f) :
    (k.inode (k.file f).ip).type ≠ 0 := (settled.orderly.lawful.held _ (settled.used named)).2

theorem Settled.accessed (settled : Settled strict loose marks origin k) (accessed : Accessed k k') :
    Settled strict loose marks origin k' := by
  obtain ⟨safe,enough,offsets⟩ := settled
  refine ⟨safe.accessed accessed,?_,?_⟩
  · rw [accessed.fs]
    exact enough
  · rw [accessed.same]
    exact offsets

theorem Onward.offsets (onward : Onward k k') (settled : Settled strict loose marks origin k) : Offsets k' := by
  intro a f named
  rcases onward.moves a f named with within | ⟨⟨b,before⟩,slot,moved⟩
  · exact within
  · intro regular
    unfold State.inode at regular ⊢
    rw [slot,onward.number b f before] at regular ⊢
    have in_use := settled.in_use before
    rw [onward.evolves.type _ in_use] at regular
    exact (moved regular).trans (onward.evolves.size _ in_use)

theorem Settled.stay (settled : Settled strict loose marks origin k) (named : k.proc.ofile fd = some f)
    (same : k'.file f = k.file f) : (∃ b, k.proc.ofile b = some f) ∧ (k'.file f).ip = (k.file f).ip ∧
      ((k.inode (k.file f).ip).type ≠ tDev → (k'.file f).off ≤ (k.inode (k.file f).ip).size.toNat) := by
  rw [same]
  exact ⟨⟨fd,named⟩,rfl,settled.offsets fd f named⟩

theorem Safe.restart (safe : Safe (Tended strict loose marks origin) k) : Safe (Tended strict loose marks k.fs) k := by
  obtain ⟨table,counted,marked,kept⟩ := safe
  refine ⟨table,counted,marked,fun enough => ?_⟩
  obtain ⟨lawful,_,_,numbers,files⟩ := kept enough
  exact ⟨lawful,Volume.Evolves.refl _,Uncut.refl _,numbers,files⟩

theorem Safe.since (safe : Safe (Tended strict loose marks k.fs) k') (enough : k'.fs.exhausted = false) :
    (k.fs.volume rootdev).Evolves (k'.fs.volume rootdev) := (safe.inv.kept enough).evolves

/-- Every handle may be taken as one that stays. -/
theorem Safe.moor (safe : Safe (Tended strict loose marks origin) k) :
    Tended strict loose k.moorings k.fs k.moored k.fs := by
  have slots : k.moored.map Prod.fst = k.handles.map Prod.fst := by
    rw [State.moored,List.map_map]
    rfl
  refine ⟨?_,fun m mark => ?_,fun enough => ?_⟩
  · unfold Counted
    rw [slots]
    exact safe.inv.counted
  · obtain ⟨h,member,rfl⟩ := List.mem_map.mp mark
    exact List.mem_map.mpr ⟨h,member,rfl⟩
  · refine ⟨(safe.inv.kept enough).lawful,Volume.Evolves.refl _,Uncut.refl _,fun m mark => ?_,fun s member => ?_⟩
    · obtain ⟨h,_,rfl⟩ := List.mem_map.mp mark
      rfl
    · obtain ⟨h,_,same⟩ := List.mem_map.mp member
      cases congrArg Prod.snd same

theorem Settled.bound (settled : Settled strict loose marks origin k) (bound : ∀ n, loose n → ∃ s, (s,n) ∈ marks) :
    ∀ n, loose n → ∃ s, (s,n) ∈ k.moorings := by
  intro n here
  obtain ⟨s,mark⟩ := bound n here
  refine ⟨s,List.mem_map.mpr ⟨_,settled.safe.inv.marked _ mark,?_⟩⟩
  rw [settled.orderly.marked _ mark]

theorem Settled.moorage (settled : Settled strict loose marks origin k) :
    k.moored.length < 48 ∧ (k.proc.cwd,Mode.cwd) ∈ k.moored := by
  refine ⟨?_,List.mem_map.mpr ⟨_,List.mem_cons_self,rfl⟩⟩
  rw [State.moored,List.length_map]
  exact settled.safe.room

/-- Where the handles stayed, the open files kept their inodes. -/
theorem Settled.onward (settled : Settled strict loose marks origin k)
    (moored : Tended strict loose k.moorings k.fs hs k'.fs) (enough : k'.fs.exhausted = false)
    (moves : ∀ a f, k'.proc.ofile a = some f → Within k' f ∨ (∃ b, k.proc.ofile b = some f) ∧ k'.file f = k.file f) :
    Onward k k' := by
  have kept := moored.kept enough
  refine ⟨fun a f named => ?_,kept.evolves,fun a f named => ?_⟩
  · exact kept.marked _ (List.mem_map.mpr ⟨_,settled.safe.handle_mem named,rfl⟩)
  · rcases moves a f named with within | ⟨⟨b,before⟩,same⟩
    · exact Or.inl within
    · exact Or.inr (settled.stay before same)

theorem within_start (zero : (k.file f).off = 0) : Within k f := by
  intro _
  rw [zero]
  exact Nat.zero_le _

theorem Settled.openFile (settled : Settled strict loose marks origin k) (bound : ∀ n, loose n → ∃ s, (s,n) ∈ marks)
    {fs : FsState} {m : Mode} {omode : Nat} (inv : Tended strict loose k.moorings k.fs ((ip,m) :: k.moored) fs)
    (given : m ≠ .cwd) (enough : (openFile { k with fs := fs } ip omode).2.fs.exhausted = false) :
    Onward k (openFile { k with fs := fs } ip omode).2 := by
  have guard := @tended_guard strict loose k.moorings k.fs (settled.bound bound)
  have cases := openFile_cases (k := { k with fs := fs }) settled.safe.table ip omode
  rcases cases with failed | ⟨a,g,vacant,zero,opened⟩
  · rw [failed] at enough ⊢
    exact settled.onward (guard.unlockput (guard.reader inv given)) enough fun a f named => Or.inr ⟨⟨a,named⟩,rfl⟩
  · rw [opened] at enough ⊢
    refine settled.onward (guard.unlock inv ip) enough fun b f named => ?_
    dsimp only at named ⊢
    rcases eq_or_ne f g with rfl | apart
    · refine Or.inl (within_start ?_)
      dsimp only
      rw [Function.update_self]
      rfl
    · refine Or.inr ⟨⟨b,?_⟩,Function.update_of_ne apart _ _⟩
      rcases eq_or_ne b a with rfl | away
      · rw [Function.update_self] at named
        exact absurd (Option.some.inj named).symm apart
      · rw [Function.update_of_ne away] at named
        exact named

end offsets

section calls
variable {strict : Prop} {loose : Nat → Prop} {marks : List (Slot × Nat)} {origin : FsState}
  {k k' : State} {f : FileId} {fd : Fin nofile}

/-- A call that returns: the offsets hold again if blocks lasted. -/
abbrev Holds (r : Except Fault (Int × State)) : Prop :=
  Meets (fun _ => True) r (fun r => r.2.fs.exhausted = false → Offsets r.2)

theorem Holds.error (e : Fault) : Holds (.error e) := trivial

theorem Settled.idle (settled : Settled strict loose marks origin k) (n : Int) : Holds (.ok (n,k)) := fun _ => settled.offsets

theorem Settled.openPath (settled : Settled strict loose marks origin k) (bound : ∀ n, loose n → ∃ s, (s,n) ∈ marks)
    (path : List Byte) (omode : Nat) : Holds (openPath k path omode) := by
  have guard := @tended_guard strict loose k.moorings k.fs (settled.bound bound)
  obtain ⟨room,here⟩ := settled.moorage
  rcases (guard.openPath settled.safe.moor room here path omode).cases with
    ⟨e,fail,_⟩ | ⟨r,ok,⟨fs,rfl,inv⟩ | ⟨fs,ip,m,rfl,inv,given,_⟩⟩
  · rw [fail]
    exact Holds.error e
  · rw [ok]
    exact fun enough => (settled.onward inv enough fun a f named => Or.inr ⟨⟨a,named⟩,rfl⟩).offsets settled
  · rw [ok]
    exact fun enough => (settled.openFile bound inv given enough).offsets settled

theorem Settled.mknodPath (settled : Settled strict loose marks origin k) (bound : ∀ n, loose n → ∃ s, (s,n) ∈ marks)
    (path : List Byte) (major minor : Nat) : Holds (mknodPath k path major minor) := by
  have guard := @tended_guard strict loose k.moorings k.fs (settled.bound bound)
  obtain ⟨room,here⟩ := settled.moorage
  rcases (guard.mknodPath settled.safe.moor room here path major minor).cases with
    ⟨e,fail,_⟩ | ⟨⟨r,k'⟩,ok,fs,rfl,inv⟩
  · rw [fail]
    exact Holds.error e
  · rw [ok]
    exact fun enough => (settled.onward inv enough fun a f named => Or.inr ⟨⟨a,named⟩,rfl⟩).offsets settled

theorem Settled.exec (settled : Settled strict loose marks origin k) (bound : ∀ n, loose n → ∃ s, (s,n) ∈ marks)
    (data : Nat) (path : Nat × Nat) (argv : List (Nat × Nat)) : Holds (exec data k path argv) := by
  have guard := @tended_guard strict loose k.moorings k.fs (settled.bound bound)
  obtain ⟨room,here⟩ := settled.moorage
  rcases (guard.exec settled.safe.moor room here data path argv).cases with ⟨e,fail,_⟩ | ⟨⟨r,k'⟩,ok,stays⟩
  · rw [fail]
    exact Holds.error e
  · rw [ok]
    refine fun enough => (settled.onward stays.inv enough fun a f named => Or.inr ⟨⟨a,?_⟩,?_⟩).offsets settled
    · rw [← stays.ofile]
      exact named
    · rw [stays.file]

theorem Settled.close (settled : Settled strict loose marks origin k) (bound : ∀ n, loose n → ∃ s, (s,n) ∈ marks)
    (named : k.proc.ofile fd = some f) (n : Int) :
    Holds (.ok (n,fileclose { k with proc := { k.proc with ofile := Function.update k.proc.ofile fd none } } f)) := by
  have kept := (settled.safe.restart.close (tended_guard k.fs bound) named).1
  have used := settled.used named
  obtain ⟨one,type⟩ := settled.safe.table.taken fd f named
  have closed := fileclose_last
    (k := { k with proc := { k.proc with ofile := Function.update k.proc.ofile fd none } }) one
  rw [if_pos type] at closed
  rw [closed] at kept ⊢
  refine fun enough => Onward.offsets ⟨fun a g _ => ?_,kept.since enough,fun a g stays => Or.inr ?_⟩ settled
  · dsimp only [State.setFile]
    rw [settled.orderly.lawful.iput_eq used]
    exact (recount_field k.fs _ _ _).2.1
  · dsimp only [State.setFile] at stays
    have apart : a ≠ fd := by
      rintro rfl
      rw [Function.update_self] at stays
      cases stays
    rw [Function.update_of_ne apart] at stays
    refine settled.stay stays (Function.update_of_ne ?_ _ _)
    rintro rfl
    exact apart (settled.safe.table.distinct a fd g stays named)

/-- A call that only locks and unlocks keeps the slots. -/
theorem Settled.fstat (settled : Settled strict loose marks origin k) (bound : ∀ n, loose n → ∃ s, (s,n) ∈ marks)
    (named : k.proc.ofile fd = some f) (n : Int) (frame : Page → Buffer) :
    Holds (.ok (n,{ k with
      fs := iunlock (ilock k.fs (k.file f).ip) (k.file f).ip
      vm := { k.vm with frame := frame } })) := by
  have guard := @tended_guard strict loose marks k.fs bound
  have kept := guard.unlock (guard.lock settled.safe.restart.inv (settled.safe.handle_mem named)) (k.file f).ip
  have calm := (ilock_calm k.fs (k.file f).ip).trans (iunlock_calm _ (k.file f).ip)
  exact fun enough => Onward.offsets ⟨fun a g _ => calm.inum _,(kept.kept enough).evolves,
    fun a g stays => Or.inr (settled.stay stays rfl)⟩ settled

end calls

section transfers
variable {strict : Prop} {loose : Nat → Prop} {marks : List (Slot × Nat)} {origin : FsState}
  {k k' : State} {f : FileId} {fd : Fin nofile}

/-- From within a file, what is left of it at most. -/
theorem readResult_left {d : Dinode} (byte : Nat → Byte) (dst : Buffer) {off n : Nat} (regular : d.type ≠ tDev)
    (within : off ≤ d.size.toNat) (small : d.size.toNat ≤ 71680) (width : n < 4294967296) :
    readResult d byte dst off n = if off + n < 4294967296 then
      (((min n (d.size.toNat - off) : Nat) : Int),blit dst 0 (min n (d.size.toNat - off)) fun i => byte (off + i))
    else (-1,dst) := by
  unfold readResult
  rw [if_neg regular]
  rcases Nat.lt_or_ge (off + n) 4294967296 with narrow | wide
  · have sum : u32 (off + n) = off + n := u32_of_lt narrow
    rw [if_pos narrow,sum,if_neg (by omega)]
    dsimp only
    split
    · rw [min_eq_right (by omega),int32_of_lt (by omega)]
    · rw [min_eq_left (by omega),int32_of_lt (by omega)]
  · have sum : u32 (off + n) = off + n - 4294967296 := by
      unfold u32
      omega
    rw [if_neg (Nat.not_lt.mpr wide),sum,if_pos (by omega)]

theorem readResult_count {d : Dinode} (byte : Nat → Byte) (dst : Buffer) {off n : Nat} (regular : d.type ≠ tDev)
    (within : off ≤ d.size.toNat) (small : d.size.toNat ≤ 71680) (width : n < 4294967296) :
    (readResult d byte dst off n).1 =
      if off + n < 4294967296 then ((min n (d.size.toNat - off) : Nat) : Int) else -1 := by
  rw [readResult_left byte dst regular within small width]
  split
  · rfl
  · rfl

/-- The offset after a transfer that returned `r`. -/
def moved (off : Nat) (r : Int) : Nat := if r > 0 then u32 (off + r.toNat) else off

theorem moved_within {off limit : Nat} {r : Int} (within : off + r.toNat ≤ limit) (small : limit ≤ 71680) :
    moved off r ≤ limit := by
  unfold moved
  split
  · rw [u32_of_lt (by omega)]
    exact within
  · omega

theorem fileread_form (readable : (k.file f).readable = true) (type : (k.file f).type = .inode) (addr n : Nat) :
    ∃ frame, fileread k f addr n =
      ((readi (ilock k.fs (k.file f).ip) (k.file f).ip (userMem k addr) (k.file f).off n).1,{ k with
        fs := iunlock (readi (ilock k.fs (k.file f).ip) (k.file f).ip (userMem k addr) (k.file f).off n).2.2 (k.file f).ip
        vm := { k.vm with frame := frame }
        file := Function.update k.file f { k.file f with
          off := moved (k.file f).off
            (readi (ilock k.fs (k.file f).ip) (k.file f).ip (userMem k addr) (k.file f).off n).1 } }) := by
  unfold fileread
  dsimp only
  rw [if_neg (by rw [readable]; decide),if_pos type]
  generalize readi (ilock k.fs (k.file f).ip) (k.file f).ip (userMem k addr) (k.file f).off n = result
  obtain ⟨r,dst,fs⟩ := result
  obtain ⟨frame,stored⟩ := storeUser_frame { k with fs := fs } addr dst r.toNat
  dsimp only
  rw [stored]
  refine ⟨frame,?_⟩
  unfold moved
  split
  · rfl
  · rw [Function.update_eq_self]

theorem Settled.locked (settled : Settled strict loose marks origin k) (named : k.proc.ofile fd = some f) :
    Lawful strict loose (ilock k.fs (k.file f).ip) ∧ Ready rootdev (k.file f).ip (ilock k.fs (k.file f).ip) ∧
      (ilock k.fs (k.file f).ip).volume rootdev = k.fs.volume rootdev ∧
      ((ilock k.fs (k.file f).ip).icache (k.file f).ip).inum = (k.fs.icache (k.file f).ip).inum := by
  have names := settled.orderly.lawful.named (settled.used named)
  have loaded := ilock_loaded names
  have lawful := loaded.lawful names settled.orderly.lawful
  have calm := ilock_calm k.fs (k.file f).ip
  refine ⟨lawful,lawful.ready ?_ (ilock_valid _ _),loaded.volume names,calm.inum _⟩
  rw [calm.ref]
  exact settled.used named

/-- A read takes what is left of the file at most. -/
theorem Settled.fileread (settled : Settled strict loose marks origin k) (bound : ∀ n, loose n → ∃ s, (s,n) ∈ marks)
    (named : k.proc.ofile fd = some f) (readable : (k.file f).readable = true) (addr : Nat) {n : Nat}
    (width : n < 4294967296) (enough : (fileread k f addr n).2.fs.exhausted = false) :
    Offsets (fileread k f addr n).2 ∧ ((k.inode (k.file f).ip).type ≠ tDev → (fileread k f addr n).1 =
      if (k.file f).off + n < 4294967296 then
        ((min n ((k.inode (k.file f).ip).size.toNat - (k.file f).off) : Nat) : Int) else -1) := by
  have kept := (settled.safe.restart.fileread (tended_guard k.fs bound) named addr width).1
  obtain ⟨frame,form⟩ := fileread_form readable (settled.safe.handle named).1 addr n
  obtain ⟨lawful,ready,volume,number⟩ := settled.locked named
  have within := settled.offsets fd f named
  have small : (k.inode (k.file f).ip).size.toNat ≤ 71680 := settled.orderly.lawful.volume.small _
  have reading := (readi_mapped (ilock k.fs (k.file f).ip) (k.file f).ip (userMem k addr) (k.file f).off n).toLocal.calm
  have result := readi_spec ready (userMem k addr) (k.file f).off n
  rw [form] at kept enough ⊢
  generalize readi (ilock k.fs (k.file f).ip) (k.file f).ip (userMem k addr) (k.file f).off n = out
    at kept enough reading result ⊢
  obtain ⟨r,dst,fs⟩ := out
  dsimp only at kept enough reading result ⊢
  have unlocking := iunlock_calm fs (k.file f).ip
  have calm := ((ilock_calm k.fs (k.file f).ip).trans reading).trans unlocking
  have value := congrArg Prod.fst (result (exhausted_of_suffix unlocking.trace enough)).2
  rw [volume,number] at value
  dsimp only at value
  have count (regular : (k.inode (k.file f).ip).type ≠ tDev) : r = if (k.file f).off + n < 4294967296 then
      ((min n ((k.inode (k.file f).ip).size.toNat - (k.file f).off) : Nat) : Int) else -1 :=
    value.trans (readResult_count _ _ regular (within regular) small width)
  refine ⟨Onward.offsets ⟨fun a g _ => calm.inum _,kept.since enough,fun a g stays => Or.inr ?_⟩ settled,count⟩
  rcases eq_or_ne g f with rfl | apart
  · dsimp only
    rw [Function.update_self]
    refine ⟨⟨a,stays⟩,rfl,fun regular => ?_⟩
    have now := within regular
    have taken := count regular
    refine moved_within ?_ small
    split at taken
    · omega
    · omega
  · exact settled.stay stays (Function.update_of_ne apart _ _)

theorem writeRound_form (k : State) (f : FileId) (addr n i : Nat) : (writeRound k f addr n i).2 = { k with
    fs := iunlock (writei (ilock k.fs (k.file f).ip) (k.file f).ip (userMem k (addr + i)) (k.file f).off
      (min (n - i) writeMax)).2 (k.file f).ip
    file := Function.update k.file f { k.file f with
      off := moved (k.file f).off
        (writei (ilock k.fs (k.file f).ip) (k.file f).ip (userMem k (addr + i)) (k.file f).off (min (n - i) writeMax)).1 } } := by
  unfold writeRound moved
  dsimp only
  split
  · rfl
  · rw [Function.update_eq_self]

/-- What `writei` returns moves the offset to the new end at most. -/
theorem Lawful.reached {st : FsState} {ip : Slot} (lawful : Lawful strict loose st) (ready : Ready rootdev ip st)
    (regular : (st.icache ip).type ≠ tDev) (file : (st.icache ip).type ≠ tDir) (src : Buffer) {off n : Nat}
    (within : off ≤ (st.icache ip).size.toNat) (width : n < 4294967296)
    (enough : (writei st ip src off n).2.exhausted = false) :
    off + (writei st ip src off n).1.toNat ≤
      (((writei st ip src off n).2.volume rootdev).inode (st.icache ip).inum).size.toNat ∧
    (((writei st ip src off n).2.volume rootdev).inode (st.icache ip).inum).size.toNat ≤ 71680 := by
  have small : (st.icache ip).size.toNat ≤ 71680 := by
    rw [← ready.copy]
    exact lawful.volume.small _
  rcases Nat.lt_or_ge 71680 (off + n) with past | room
  · rw [writei_refused regular width (Or.inr past),ready.copy]
    exact ⟨within,small⟩
  · have tight : ¬loose (st.icache ip).inum := fun here => file (by
      rw [← ready.copy]
      exact lawful.volume.directory _ here)
    obtain ⟨result,wrote⟩ := writei_wrote ready regular (lawful.volume.filled _ tight) within room enough
    rw [result,wrote.size,ready.copy,Int.toNat_natCast]
    exact ⟨le_max_right _ _,max_le small room⟩

theorem Settled.writeRound (settled : Settled strict loose marks origin k) (bound : ∀ n, loose n → ∃ s, (s,n) ∈ marks)
    (named : k.proc.ofile fd = some f) (writable : (k.file f).writable = true) (addr n i : Nat)
    (enough : (writeRound k f addr n i).2.fs.exhausted = false) : Offsets (writeRound k f addr n i).2 := by
  have kept := (settled.safe.restart.writeRound (tended_guard k.fs bound) named writable addr n i).1
  obtain ⟨lawful,ready,volume,number⟩ := settled.locked named
  have member := settled.safe.handle_mem named
  rw [writable,if_pos rfl] at member
  have file := settled.orderly.files _ member
  have within := settled.offsets fd f named
  have copy := ready.copy
  rw [volume,number] at copy
  have width : min (n - i) writeMax < 4294967296 := lt_of_le_of_lt (min_le_right _ _) (by decide)
  have writing := (writei_local (ilock k.fs (k.file f).ip) (k.file f).ip (userMem k (addr + i)) (k.file f).off
    (min (n - i) writeMax)).calm
  have reached := fun regular => @Lawful.reached _ _ _ _ lawful ready regular (by rw [← copy]; exact file)
    (userMem k (addr + i)) (k.file f).off (min (n - i) writeMax)
  rw [writeRound_form] at kept enough ⊢
  generalize writei (ilock k.fs (k.file f).ip) (k.file f).ip (userMem k (addr + i)) (k.file f).off
    (min (n - i) writeMax) = out at kept enough writing reached ⊢
  obtain ⟨r,fs⟩ := out
  dsimp only at kept enough writing reached ⊢
  have unlocking := iunlock_calm fs (k.file f).ip
  have calm := ((ilock_calm k.fs (k.file f).ip).trans writing).trans unlocking
  refine Onward.offsets ⟨fun a g _ => calm.inum _,kept.since enough,fun a g stays => ?_⟩ settled
  rcases eq_or_ne g f with rfl | apart
  · refine Or.inl fun regular => ?_
    have evolves := kept.since enough
    unfold State.inode at regular ⊢
    dsimp only at regular evolves ⊢
    rw [Function.update_self] at regular ⊢
    rw [calm.inum] at regular ⊢
    rw [evolves.type _ (settled.in_use named)] at regular
    have regular' := regular
    have now := within regular'
    unfold State.inode at now
    rw [copy] at regular now
    have last := reached regular now width (exhausted_of_suffix unlocking.trace enough)
    rw [number] at last
    have same : (iunlock fs (k.file g).ip).volume rootdev = fs.volume rootdev := by
      unfold iunlock
      split
      · rfl
      · rfl
    dsimp only
    rw [same]
    exact moved_within last.1 last.2
  · exact Or.inr (settled.stay stays (Function.update_of_ne apart _ _))

end transfers

section runs
variable {strict : Prop} {loose : Nat → Prop} {marks : List (Slot × Nat)} {origin : FsState} {data : Nat}
  {k k' : State} {f : FileId} {fd : Fin nofile}

/-- What every round of a write keeps. -/
structure Writing (strict : Prop) (loose : Nat → Prop) (marks : List (Slot × Nat)) (origin : FsState) (fd : Fin nofile)
    (f : FileId) (k : State) : Prop where
  safe : Safe (Tended strict loose marks origin) k
  named : k.proc.ofile fd = some f
  writable : (k.file f).writable = true
  offsets : k.fs.exhausted = false → Offsets k

theorem writeRound_trace (k : State) (f : FileId) (addr n i : Nat) : k.fs.trace <:+ (writeRound k f addr n i).2.fs.trace := by
  rw [writeRound_form]
  exact (((ilock_calm k.fs (k.file f).ip).trans (writei_local _ (k.file f).ip (userMem k (addr + i)) (k.file f).off
    (min (n - i) writeMax)).calm).trans (iunlock_calm _ (k.file f).ip)).trace

theorem Writing.round (writing : Writing strict loose marks origin fd f k)
    (bound : ∀ n, loose n → ∃ s, (s,n) ∈ marks) (addr n i : Nat) :
    Writing strict loose marks origin fd f (writeRound k f addr n i).2 := by
  obtain ⟨safe,named,writable,offsets⟩ := writing
  obtain ⟨proc,off,file⟩ := writeRound_same k f addr n i
  refine ⟨(safe.writeRound (tended_guard origin bound) named writable addr n i).1,?_,?_,fun enough => ?_⟩
  · rw [proc]
    exact named
  · rw [file,Function.update_self]
    exact writable
  · have before := exhausted_of_suffix (writeRound_trace k f addr n i) enough
    have settled : Settled strict loose marks origin k := ⟨safe,before,offsets before⟩
    exact settled.writeRound bound named writable addr n i enough

theorem Writing.short (writing : Writing strict loose marks origin fd f k)
    (bound : ∀ n, loose n → ∃ s, (s,n) ∈ marks) :
    Writing strict loose marks origin fd f { k with fs := kprint k.fs .shortWrite } := by
  obtain ⟨⟨table,inv⟩,named,writable,offsets⟩ := writing
  exact ⟨⟨table,(tended_guard origin bound).print _ inv (by decide) (by decide)⟩,named,writable,offsets⟩

theorem Settled.filewrite (settled : Settled strict loose marks origin k) (bound : ∀ n, loose n → ∃ s, (s,n) ∈ marks)
    (named : k.proc.ofile fd = some f) (addr n : Nat) : Holds (filewrite k f addr n) := by
  unfold Kernel.filewrite
  dsimp only
  split
  · exact settled.idle (-1)
  · rename_i writable
    rw [if_pos (settled.safe.handle named).1]
    have start : Writing strict loose marks origin fd f k :=
      ⟨settled.safe,named,by simpa using writable,fun _ => settled.offsets⟩
    have loop := @filewriteLoop_keeps k f (Writing strict loose marks origin fd f) addr n
      (fun k i writing => writing.round bound addr n i) (fun k writing => writing.short bound) (n+1) 0 start
    rcases loop.cases with ⟨e,fail,_⟩ | ⟨r,ok,writing⟩
    · rw [fail]
      exact Holds.error e
    · rw [ok]
      exact writing.offsets

theorem Settled.sysOpen (settled : Settled strict loose marks origin k) (bound : ∀ n, loose n → ∃ s, (s,n) ∈ marks) :
    Holds (sysOpen k) := by
  unfold Kernel.sysOpen
  rcases (argstr_accessed k 0).cases with ⟨e,fail,_⟩ | ⟨⟨_ | ⟨addr,len⟩,k1⟩,ok,first,_⟩
  · rw [fail]
    exact Holds.error e
  · rw [ok]
    exact (settled.accessed first).idle (-1)
  rw [ok]
  dsimp only
  rcases (argint_accessed k1 1).cases with ⟨e,fail,_⟩ | ⟨⟨_ | omode,k2⟩,ok,second,_⟩
  · rw [fail]
    exact Holds.error e
  · rw [ok]
    exact ((settled.accessed first).accessed second).idle (-1)
  · rw [ok]
    exact ((settled.accessed first).accessed second).openPath bound _ omode

theorem Settled.sysMknod (settled : Settled strict loose marks origin k) (bound : ∀ n, loose n → ∃ s, (s,n) ∈ marks) :
    Holds (sysMknod k) := by
  unfold Kernel.sysMknod
  rcases (argstr_accessed k 0).cases with ⟨e,fail,_⟩ | ⟨⟨_ | ⟨addr,len⟩,k1⟩,ok,first,_⟩
  · rw [fail]
    exact Holds.error e
  · rw [ok]
    exact (settled.accessed first).idle (-1)
  rw [ok]
  have settled := settled.accessed first
  dsimp only
  rcases (argint_accessed k1 1).cases with ⟨e,fail,_⟩ | ⟨⟨_ | major,k2⟩,ok,second,_⟩
  · rw [fail]
    exact Holds.error e
  · rw [ok]
    exact (settled.accessed second).idle (-1)
  rw [ok]
  have settled := settled.accessed second
  dsimp only
  rcases (argint_accessed k2 2).cases with ⟨e,fail,_⟩ | ⟨⟨_ | minor,k3⟩,ok,third,_⟩
  · rw [fail]
    exact Holds.error e
  · rw [ok]
    exact (settled.accessed third).idle (-1)
  · rw [ok]
    exact (settled.accessed third).mknodPath bound _ major minor

theorem Settled.sysRead (settled : Settled strict loose marks origin k) (bound : ∀ n, loose n → ∃ s, (s,n) ∈ marks) :
    Holds (sysRead k) := by
  unfold Kernel.sysRead
  rcases (argbuf_accessed k).cases with ⟨e,fail,_⟩ | ⟨⟨_ | ⟨f,p,n⟩,k1⟩,ok,first,buffer⟩
  · rw [fail]
    exact Holds.error e
  · rw [ok]
    exact (settled.accessed first).idle (-1)
  rw [ok]
  obtain ⟨width,fd,named⟩ := buffer f p n rfl
  rw [← first.proc] at named
  have settled := settled.accessed first
  cases readable : (k1.file f).readable with
  | true => exact fun enough => (settled.fileread bound named readable p width enough).1
  | false =>
    have refused : Kernel.fileread k1 f p n = (-1,k1) := if_pos readable
    dsimp only
    rw [refused]
    exact settled.idle (-1)

theorem Settled.sysWrite (settled : Settled strict loose marks origin k) (bound : ∀ n, loose n → ∃ s, (s,n) ∈ marks) :
    Holds (sysWrite k) := by
  unfold Kernel.sysWrite
  rcases (argbuf_accessed k).cases with ⟨e,fail,_⟩ | ⟨⟨_ | ⟨f,p,n⟩,k1⟩,ok,first,buffer⟩
  · rw [fail]
    exact Holds.error e
  · rw [ok]
    exact (settled.accessed first).idle (-1)
  rw [ok]
  obtain ⟨_,fd,named⟩ := buffer f p n rfl
  rw [← first.proc] at named
  exact (settled.accessed first).filewrite bound named p n

theorem Settled.sysClose (settled : Settled strict loose marks origin k) (bound : ∀ n, loose n → ∃ s, (s,n) ∈ marks) :
    Holds (sysClose k) := by
  unfold Kernel.sysClose
  rcases (argfd_accessed k 0).cases with ⟨e,fail,_⟩ | ⟨⟨_ | ⟨fd,f⟩,k1⟩,ok,first,named⟩
  · rw [fail]
    exact Holds.error e
  · rw [ok]
    exact (settled.accessed first).idle (-1)
  rw [ok]
  have named := named fd f rfl
  rw [← first.proc] at named
  exact (settled.accessed first).close bound named 0

theorem Settled.sysFstat (settled : Settled strict loose marks origin k) (bound : ∀ n, loose n → ∃ s, (s,n) ∈ marks) :
    Holds (sysFstat k) := by
  unfold Kernel.sysFstat
  rcases (argfd_accessed k 0).cases with ⟨e,fail,_⟩ | ⟨⟨_ | ⟨fd,f⟩,k1⟩,ok,first,named⟩
  · rw [fail]
    exact Holds.error e
  · rw [ok]
    exact (settled.accessed first).idle (-1)
  rw [ok]
  have settled := settled.accessed first
  dsimp only
  rcases (argptr_accessed k1 1 (by decide : (statSize : Int) < 2147483648)).cases with ⟨e,fail,_⟩ | ⟨⟨_ | p,k2⟩,ok,second⟩
  · rw [fail]
    exact Holds.error e
  · rw [ok]
    exact (settled.accessed second).idle (-1)
  rw [ok]
  have settled := settled.accessed second
  have named2 : k2.proc.ofile fd = some f := by
    rw [second.proc,first.proc]
    exact named fd f rfl
  obtain ⟨frame,stored⟩ := storeUser_frame { k2 with fs := iunlock (ilock k2.fs (k2.file f).ip) (k2.file f).ip } p
    (statBytes (userMem { k2 with fs := iunlock (ilock k2.fs (k2.file f).ip) (k2.file f).ip } p)
      (stati ((ilock k2.fs (k2.file f).ip).icache (k2.file f).ip))) statSize
  dsimp only
  rw [filestat,if_pos (settled.safe.handle named2).1]
  dsimp only
  rw [stored]
  exact settled.fstat bound named2 0 frame

theorem Settled.touched (settled : Settled strict loose marks origin k) (same : k' = { k with touched := k'.touched }) :
    Settled strict loose marks origin k' := by
  rw [same]
  exact ⟨⟨settled.safe.table,settled.safe.inv⟩,settled.enough,settled.offsets⟩

theorem Settled.sysExec (settled : Settled strict loose marks origin k) (bound : ∀ n, loose n → ∃ s, (s,n) ∈ marks)
    (data : Nat) : Holds (sysExec data k) := by
  unfold Kernel.sysExec
  rcases (argstr_accessed k 0).cases with ⟨e,fail,_⟩ | ⟨⟨_ | path,k1⟩,ok,first,_⟩
  · rw [fail]
    exact Holds.error e
  · rw [ok]
    exact (settled.accessed first).idle (-1)
  rw [ok]
  have settled := settled.accessed first
  dsimp only
  rcases (argint_accessed k1 1).cases with ⟨e,fail,_⟩ | ⟨⟨_ | uargv,k2⟩,ok,second,_⟩
  · rw [fail]
    exact Holds.error e
  · rw [ok]
    exact (settled.accessed second).idle (-1)
  rw [ok]
  have settled := settled.accessed second
  dsimp only
  rcases (argvLoop_accessed k2 uargv maxarg 0).cases with ⟨e,fail,_⟩ | ⟨⟨_ | argv,k3⟩,ok,third,_⟩
  · rw [fail]
    exact Holds.error e
  · rw [ok]
    exact (settled.accessed third).idle (-1)
  rw [ok]
  have settled := settled.accessed third
  dsimp only
  rcases (printString_soft k3 path.1 4294967296 0).cases with ⟨e,fail,_⟩ | ⟨k4,ok,same4⟩
  · rw [fail]
    exact Holds.error e
  rw [ok]
  have settled := settled.touched same4
  dsimp only
  rcases (printString_soft k4 ((argv.head?.map Prod.fst).getD 0) 4294967296 0).cases with ⟨e,fail,_⟩ | ⟨k5,ok,same5⟩
  · rw [fail]
    exact Holds.error e
  rw [ok]
  exact (settled.touched same5).exec bound data path argv

theorem Settled.dispatch (settled : Settled strict loose marks origin k) (bound : ∀ n, loose n → ∃ s, (s,n) ∈ marks)
    (data : Nat) (call : Call) : Holds (dispatch data k call) := by
  cases call with
  | open_ => exact settled.sysOpen bound
  | mknod => exact settled.sysMknod bound
  | read => exact settled.sysRead bound
  | write => exact settled.sysWrite bound
  | close => exact settled.sysClose bound
  | fstat => exact settled.sysFstat bound
  | exec => exact settled.sysExec bound data

theorem Safe.trace (safe : Safe Counted k) (run : Run data k k') : k.fs.trace <:+ k'.fs.trace := by
  have start : Safe (fun hs st => Counted hs st ∧ Fs.Nests 2 [] k.fs st) k := ⟨safe.table,safe.inv,Nests.refl _⟩
  exact trace_since (start.run (counted_guard.pinned k.fs) run).inv.2

theorem Settled.run (settled : Settled strict loose marks origin k) (bound : ∀ n, loose n → ∃ s, (s,n) ∈ marks)
    (run : Run data k k') (enough : k'.fs.exhausted = false) : Settled strict loose marks origin k' := by
  induction run with
  | refl => exact settled
  | @tail k1 k2 run step ih =>
    have safe := settled.safe.run (tended_guard origin bound) run
    have before := exhausted_of_suffix
      ((Safe.trace ⟨safe.table,safe.inv.counted⟩ (Relation.ReflTransGen.single step))) enough
    have settled1 := ih before
    refine ⟨safe.step (tended_guard origin bound) step,enough,?_⟩
    cases step with
    | user _ _ _ stack => exact settled1.offsets
    | call _ call r ok => exact (settled1.dispatch bound data call).elim ok enough

end runs

end Lxos.Kernel
