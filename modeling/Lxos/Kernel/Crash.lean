import Lxos.Fs.Crash
import Lxos.Kernel.Coherence

/-! Crashes during system calls. Whatever prefix of the writes of a sequence of calls reaches
the disk, it leaves an intact one. -/
namespace Lxos.Kernel
open Lxos.Bytes Lxos.Fs Lxos.Utils Lxos.Outcome

/-- All writes since `start` were harmless, as long as there were blocks and inodes. -/
structure Durable (start : FsState) (hs : List Handle) (st : FsState) : Prop where
  neat : Neat hs st
  carried : st.exhausted = false → Carried False start st

section durable
variable {start : FsState} {hs hs' : List Handle} {st st' : FsState} {ip dp s : Slot} {m : Mode}

theorem Durable.step (durable : Durable start hs st) (neat : Neat hs' st') (trace : st.trace <:+ st'.trace)
    (next : st'.exhausted = false → Tidy False st → st.Linked → Carried False st st') : Durable start hs' st' := by
  refine ⟨neat,fun enough => ?_⟩
  have carried := durable.carried (exhausted_of_suffix trace enough)
  exact carried.trans (next enough carried.tidy carried.linked)

theorem Durable.used (durable : Durable start hs st) (member : (ip,m) ∈ hs) : 0 < (st.icache ip).ref :=
  durable.neat.counted.used member

theorem Durable.print (durable : Durable start hs st) {m : Message} (blocks : m ≠ .ballocOut) (inodes : m ≠ .iallocOut) :
    Durable start hs (kprint st m) :=
  durable.step (durable.neat.print blocks inodes) (List.suffix_cons _ _)
    fun _ tidy linked => Carried.print tidy linked ⟨blocks,inodes⟩

theorem Durable.stack (durable : Durable start hs st) (b : Buffer) : Durable start hs { st with stack := b } := by
  have neat := durable.neat.stack b
  refine durable.step neat (List.suffix_refl _) fun enough tidy linked => ?_
  exact Carried.still linked ⟨neat.tidy enough,rfl⟩ linked.held (Through.quiet rfl rfl (tidy.survives linked.volume))

theorem Durable.perm (durable : Durable start hs st) (same : hs.Perm hs') : Durable start hs' st :=
  ⟨durable.neat.perm same,durable.carried⟩

theorem Durable.root (durable : Durable start hs st) (room : hs.length < 50) :
    Meets Tolerated (iget st rootdev rootino) (fun r => Durable start ((r.1,.read) :: hs) r.2) := by
  have neat := durable.neat.root room
  cases getting : iget st rootdev rootino with
  | error e =>
    rw [getting] at neat
    exact neat
  | ok r =>
    have got := iget_got getting
    exact durable.step (neat.elim getting) (by rw [got.trace]) fun _ tidy linked =>
      Carried.got tidy linked got tidy.volume.root linked.volume.root

theorem Durable.dup (durable : Durable start hs st) (member : (ip,m) ∈ hs) : Durable start ((ip,.read) :: hs) (idup st ip) :=
  durable.step (durable.neat.dup member) (List.suffix_refl _) fun _ tidy linked =>
    Carried.recount tidy linked fun _ => durable.used member

theorem Durable.lock (durable : Durable start hs st) (member : (ip,m) ∈ hs) : Durable start hs (ilock st ip) :=
  durable.step (durable.neat.lock member) (ilock_calm st ip).trace fun _ tidy linked =>
    Carried.lock tidy linked (durable.used member)

theorem Durable.put (durable : Durable start ((ip,.read) :: hs) st) : Durable start hs (iput st ip) :=
  durable.step durable.neat.put (iput_trace st ip) fun _ tidy linked =>
    Carried.put tidy linked (durable.used List.mem_cons_self)

theorem Durable.unlockput (durable : Durable start ((ip,.read) :: hs) st) : Durable start hs (iunlockput st ip) := by
  unfold iunlockput iunlock
  split
  · exact (durable.print (by decide) (by decide)).put
  · exact durable.put

theorem Durable.write (durable : Durable start hs st) (member : (ip,Mode.write) ∈ hs) (valid : (st.icache ip).valid = true)
    (src : Buffer) (off : Nat) {n : Nat} (width : n < 4294967296) : Durable start hs (writei st ip src off n).2 := by
  have trace := (writei_local st ip src off n).trace
  refine durable.step (durable.neat.write member valid src off width) trace fun enough tidy linked => ?_
  have file := durable.neat.files (exhausted_of_suffix trace enough) ip member
  rw [(tidy.ready (durable.used member) valid).copy] at file
  exact Carried.write tidy linked (durable.used member) valid file width enough

theorem Durable.lookup (durable : Durable start hs st) (room : hs.length < 50) (member : (dp,m) ∈ hs)
    (dir : IsDir st dp) (name : Buffer) : Meets Tolerated (dirlookup st dp name) (fun r =>
      match r.1 with
      | none => Durable start hs r.2 ∧ IsDir r.2 dp
      | some (ip,_) => Durable start ((ip,.read) :: hs) r.2) := by
  have neat := durable.neat.lookup room member dir name
  cases looking : dirlookup st dp name with
  | error e =>
    rw [looking] at neat
    exact neat
  | ok r =>
    have trace := trace_since ((dirlookup_nests st dp name).elim looking)
    have next (tidy : Tidy False st) (linked : st.Linked) : Carried False st r.2 :=
      Carried.lookup tidy linked (tidy.ready (durable.used member) dir.1) dir.2 looking
    replace neat := neat.elim looking
    obtain ⟨_ | ⟨ip,off⟩,st1⟩ := r
    · exact ⟨durable.step neat.1 trace fun _ => next,neat.2⟩
    · exact durable.step neat trace fun _ => next

theorem Durable.make (durable : Durable start ((dp,.read) :: hs) st) (dir : IsDir st dp) {type : BitVec 16} (some_type : type ≠ 0)
    (regular : type ≠ tDir) (major minor : BitVec 16) {st1 : FsState}
    (counted : Counted ((ip,.write) :: (dp,.read) :: hs) (createInode st1 ip major minor))
    (ok : ialloc st (st.icache dp).dev type = .ok (some ip,st1)) :
    Durable start ((ip,.write) :: (dp,.read) :: hs) (createInode st1 ip major minor) ∧
      ((createInode st1 ip major minor).exhausted = false → IsDir (createInode st1 ip major minor) dp ∧
        ((createInode st1 ip major minor).icache ip).inum < start.sb.ninodes) := by
  obtain ⟨neat,here⟩ := durable.neat.make dir regular major minor counted ok
  have used : 0 < (st.icache dp).ref := durable.used List.mem_cons_self
  have trace : st.trace <:+ (createInode st1 ip major minor).trace :=
    (trace_since ((ialloc_nests st _ type).elim ok)).trans (trace_since (createInode_nests st1 ip major minor))
  have next (tidy : Tidy False st) (linked : st.Linked) := by
    rw [(tidy.held dp used).1] at ok
    exact Carried.created tidy linked some_type major minor ok
  refine ⟨durable.step neat trace fun _ tidy linked => (next tidy linked).1,fun enough => ⟨here enough,?_⟩⟩
  have carried := durable.carried (exhausted_of_suffix trace enough)
  rw [← carried.sb]
  exact (next carried.tidy carried.linked).2

theorem Durable.link (durable : Durable start hs st) (room : hs.length < 50) {m' : Mode} (parent : (dp,m) ∈ hs) (member : (ip,m') ∈ hs)
    (dir : st.exhausted = false → IsDir st dp ∧ (st.icache ip).inum < 65536) (name : Buffer) :
    Meets Tolerated (dirlink st dp name (st.icache ip).inum) (fun r => Durable start hs r.2) := by
  have neat := durable.neat.link room parent member (fun enough => (dir enough).1) name
  cases linking : dirlink st dp name (st.icache ip).inum with
  | error e =>
    rw [linking] at neat
    exact neat
  | ok r =>
    have trace := trace_since ((dirlink_nests st dp name (st.icache ip).inum).elim linking)
    refine durable.step (neat.elim linking) trace fun enough tidy linked => ?_
    obtain ⟨⟨valid,type⟩,width⟩ := dir (exhausted_of_suffix trace enough)
    exact Carried.dirlink tidy linked (tidy.ready (durable.used parent) valid) type (linked.held ip (durable.used member)) width
      linking enough

theorem Durable.enter (durable : Durable start ((dp,.read) :: hs) st) (small : start.sb.ninodes ≤ 65536) (room : hs.length < 48)
    (dir : IsDir st dp) (name : Buffer) {type : BitVec 16} (some_type : type ≠ 0) (regular : type ≠ tDir) (major minor : BitVec 16) :
    Meets Tolerated (createNew st dp name type major minor) (fun r => Durable start ((r.1,.write) :: hs) r.2) := by
  refine createNew_met durable.neat.counted room name regular major minor (fun durable => durable.perm)
    (fun durable => durable.print (by decide) (by decide)) (fun durable => durable.unlockput) fun ip st1 ok counted => ?_
  obtain ⟨made,here⟩ := durable.make dir some_type regular major minor counted ok
  have length : ((ip,Mode.write) :: (dp,Mode.read) :: hs).length < 50 := by
    rw [List.length_cons,List.length_cons]
    omega
  exact made.link length (List.mem_cons_of_mem _ List.mem_cons_self) List.mem_cons_self
    (fun enough => ⟨(here enough).1,lt_of_lt_of_le (here enough).2 small⟩) name

theorem durable_guard (small : start.sb.ninodes ≤ 65536) : Guard (Durable start) where
  perm := fun durable => durable.perm
  print := fun _ durable blocks inodes => durable.print blocks inodes
  stack := fun b durable => durable.stack b
  grant := fun durable valid regular => ⟨durable.neat.grant valid regular,durable.carried⟩
  weaken := fun durable => ⟨durable.neat.weaken,durable.carried⟩
  root := fun durable => durable.root
  dup := fun durable => durable.dup
  lock := fun durable => durable.lock
  put := fun durable => durable.put
  read := fun dst off _ durable member valid width => durable.step (durable.neat.read member valid dst off width)
    (readi_mapped _ _ dst off _).toLocal.trace fun _ tidy linked =>
      Carried.read tidy linked (durable.used member) valid dst off width
  write := fun src off _ durable member valid => durable.write member valid src off
  lookup := fun name durable room member dir => durable.lookup room member dir name
  enter := fun name _ major minor durable room dir some_type regular => durable.enter small room dir name some_type regular major minor

end durable

/-- What a crash has to leave: the blocks of an inode in use are marked and have no other place,
and entries of directories are for inodes in use. -/
structure Consistent (v : Volume) : Prop where
  held : ∀ p, (v.inode p.1).type ≠ 0 → v.ref p ≠ 0 → v.marked (v.ref p)
  once : ∀ p q, (v.inode p.1).type ≠ 0 → v.ref p ≠ 0 → v.ref p = v.ref q → p = q
  leads : ∀ k n, v.Leads k n → (v.inode n).type ≠ 0

theorem Consistent.of_intact {v : Volume} (intact : v.Intact) : Consistent v :=
  ⟨fun p _ => intact.sound.held p,fun p q _ => intact.sound.exclusive p q,intact.leads⟩

/-- As long as blocks and inodes last, the machine may stop after any write of any sequence of system calls. -/
theorem crash_safe {data : Nat} {k k' : State} (table : Table k.file k.proc.ofile) (counted : Counted k.handles k.fs)
    (tidy : Tidy False k.fs) (linked : k.fs.Linked) (files : DirsReadOnly k) (small : k.fs.sb.ninodes ≤ 65536)
    (run : Run data k k') (enough : k'.fs.exhausted = false) :
    ∃ es, Since k.fs k'.fs es ∧ k'.fs.disk = replay k.fs.disk es ∧
      ∀ l, l <:+ es → Consistent (Volume.ofDisk k.fs.sb (replay k.fs.disk l rootdev)) := by
  have safe : Safe (Durable k.fs) k := ⟨table,neat_start counted tidy files,fun _ => Carried.refl tidy linked⟩
  obtain ⟨es,since,disk,all⟩ := ((safe.run (durable_guard small) run).inv.carried enough).through
  exact ⟨es,since,disk,fun l short => Consistent.of_intact (all l short)⟩

/-- On a lawful file system everything that is used has links. -/
theorem linked_of_lawful {strict : Prop} {loose : Nat → Prop} {st : FsState} (lawful : Lawful strict loose st) : st.Linked := by
  have live {n : Nat} (used : ((st.volume rootdev).inode n).type ≠ 0) : (st.volume rootdev).Live n :=
    ⟨used,lawful.volume.linked n used⟩
  refine ⟨⟨live lawful.volume.root,?_⟩,fun s used => live (lawful.held s used).2⟩
  rintro j n ⟨directory,i,name,inside,entry⟩
  exact live ((lawful.volume.listing j directory).named i name n inside entry)

/-- A fresh image of one empty file, before the first call. -/
theorem crash_safe_start : ∃ image, mkfs [emptyFile] = some image ∧ Consistent (Volume.ofDisk
    (uinitState ⟨fun _ _ => .zero,fun _ => zeros,[],[]⟩ 1 2 (fun _ => image.sectors) zeros).fs.sb image.sectors) := by
  obtain ⟨image,made⟩ := @mkfs_room [emptyFile] (by decide) (by decide)
  obtain ⟨t,lists,finished,blank⟩ := mkfs_blank (by decide) made
  have safe := uinitState_safe ⟨fun _ _ => .zero,fun _ => zeros,[],[]⟩ 1 2 (fun _ => image.sectors) zeros
  have tidy := @uinitState_tidy False _ _ _ (fun _ => image.sectors) lists finished (by decide) (by decide) blank rfl
    ⟨fun _ _ => .zero,fun _ => zeros,[],[]⟩ 1 2 zeros
  have lawful := @uinitState_lawful _ _ (fun _ => image.sectors) made (by decide) rfl ⟨fun _ _ => .zero,fun _ => zeros,[],[]⟩ 1 2 zeros
  have small : (uinitState ⟨fun _ _ => .zero,fun _ => zeros,[],[]⟩ 1 2 (fun _ => image.sectors) zeros).fs.sb.ninodes ≤ 65536 := by
    have on := (@mounted_uinit image (fun _ => image.sectors) rfl ⟨fun _ _ => .zero,fun _ => zeros,[],[]⟩ 1 2 zeros).on
    rw [on.sb,finished.super,superBlock_decode]
    decide
  obtain ⟨es,since,_,law⟩ := @crash_safe 0 _ _ safe.table safe.inv tidy.1 (linked_of_lawful lawful)
    (fun f used => absurd used (lt_irrefl 0)) small Relation.ReflTransGen.refl rfl
  have nothing : es = [] := List.append_cancel_right (show es ++ _ = [] ++ _ from since.symm)
  subst nothing
  exact ⟨image,made,law [] (List.suffix_refl _)⟩

/-- The root, empty but with the block of the bitmap for its first. -/
def crossed : Dinode := { Dinode.zero with type := tDir,nlink := 1,addrs := fun i => if i.val = 0 then 3 else 0 }

/-- A disk of 16 blocks, with a superblock, and a process that makes a device of one letter. -/
def tangled : State where
  fs := ⟨fun _ b => if b = 1 then blit (blit (blit (blit (blit (blit zeros 0 1 fun _ => 16) 4 1 fun _ => 12) 8 1 fun _ => 8) 16 1 fun _ => 2)
        20 1 fun _ => 2) 24 1 fun _ => 3
      else if b = 2 then crossed.encode zeros 64 else if b = 3 then blit zeros 0 1 (fun _ => 15) else zeros,
    blank.sb,fun s => if s = 0 then ⟨Dinode.zero,1,1,1,false⟩ else ⟨Dinode.zero,0,0,0,false⟩,zeros,[]⟩
  file := fun _ => ⟨.none,0,false,false,0,0⟩
  vm := ⟨fun _ _ => ⟨true,true,true,3⟩,fun _ => blit zeros 4 1 (fun _ => 4),[],[]⟩
  proc := ⟨4096,2,1,zeros,fun _ => none,0,0,0⟩
  touched := []

theorem tangled_inode (k : Nat) : (Volume.ofDisk blank.sb (tangled.fs.disk rootdev)).inode k =
    if k < 8 then tangled.fs.table rootdev k else Dinode.zero := rfl

theorem tangled_ref (p : Nat × Nat) : (Volume.ofDisk blank.sb (tangled.fs.disk rootdev)).ref p = if p = (1,0) then 3 else 0 := by
  have addrs : ∀ k < 8, ∀ i < 13, (tangled.fs.table rootdev k).addr i = if k = 1 ∧ i = 0 then 3 else 0 := by decide
  refine Volume.ref_single (show 1 < blank.sb.slots by decide) (fun i low => ?_) (fun k away i low => ?_) p
  · rw [tangled_inode,if_pos (by decide),addrs 1 (by decide) i low]
    simp
  · rw [tangled_inode]
    split
    · rename_i inside
      rw [addrs k inside i low,if_neg fun h => away h.1]
    · exact Dinode.addr_zero i

theorem tangled_kind (k : Nat) : ((Volume.ofDisk blank.sb (tangled.fs.disk rootdev)).inode k).size = 0 := by
  have empty : ∀ k < 8, (tangled.fs.table rootdev k).size = 0 := by decide
  rw [tangled_inode]
  split
  · rename_i inside
    exact empty k inside
  · rfl

theorem tangled_consistent : Consistent (Volume.ofDisk blank.sb (tangled.fs.disk rootdev)) := by
  have bit : (tangled.fs.disk rootdev (blank.sb.bblock 3) (3 % bpb / 8)).getLsbD (3 % 8) = true := by decide
  refine ⟨fun p _ some => ?_,fun p q _ some same => ?_,?_⟩
  · rw [tangled_ref] at some ⊢
    split at some
    · rename_i here
      rw [if_pos here]
      exact bit
    · exact absurd rfl some
  · rw [tangled_ref] at some
    rw [tangled_ref,tangled_ref] at same
    split at some
    · rename_i here
      rw [if_pos here] at same
      split at same
      · rename_i there
        exact here.trans there.symm
      · cases same
    · exact absurd rfl some
  · rintro k n ⟨_,j,name,low,_⟩
    rw [tangled_kind] at low
    exact absurd low (Nat.not_lt_zero _)

/-- The entry of the device goes to the bitmap, and unmarks it. -/
theorem crash_tangled : ¬∀ (data : Nat) (k k' : State), Table k.file k.proc.ofile → Counted k.handles k.fs →
    (∀ f, (k.file f).ref = 0) → k.fs.sb.Layout → k.fs.Super rootdev → k.fs.Coherent rootdev →
    Consistent (Volume.ofDisk k.fs.sb (k.fs.disk rootdev)) →
    (∀ b < k.fs.sb.nmeta, (Volume.ofDisk k.fs.sb (k.fs.disk rootdev)).marked b) →
    (Volume.ofDisk k.fs.sb (k.fs.disk rootdev)).Linked →
    (∀ n, (Volume.ofDisk k.fs.sb (k.fs.disk rootdev)).Filled n) →
    Run data k k' → k'.fs.exhausted = false →
    ∃ es, Since k.fs k'.fs es ∧ k'.fs.disk = replay k.fs.disk es ∧
      ∀ l, l <:+ es → Consistent (Volume.ofDisk k.fs.sb (replay k.fs.disk l rootdev)) := by
  intro claim
  obtain ⟨r,k',made,enough,type,addr,bit⟩ : ∃ r k', sysMknod tangled = .ok (r,k') ∧ k'.fs.exhausted = false ∧
      (Dinode.decode (k'.fs.disk rootdev 2) 64).type ≠ 0 ∧ (Dinode.decode (k'.fs.disk rootdev 2) 64).addr 0 = 3 ∧
      (k'.fs.disk rootdev 3 0).getLsbD 3 = false := by
    refine ⟨_,_,rfl,?_⟩
    decide
  have bits : ∀ b < 4, (tangled.fs.disk rootdev (blank.sb.bblock b) (b % bpb / 8)).getLsbD (b % 8) = true := by decide
  have counts : ∀ s, (tangled.fs.icache s).ref = ((tangled.handles.map Prod.fst).count s : Int) := by decide
  have one (s : Slot) (used : 0 < (tangled.fs.icache s).ref) : s = 0 := by
    by_contra other
    rw [show tangled.fs.icache s = ⟨Dinode.zero,0,0,0,false⟩ from if_neg other] at used
    exact lt_irrefl 0 used
  have unloaded (s : Slot) : ¬tangled.fs.Locked rootdev s := fun locked => by
    have valid := locked.2.2
    rw [one s locked.1] at valid
    cases valid
  have filled (n : Nat) : (Volume.ofDisk blank.sb (tangled.fs.disk rootdev)).Filled n := by
    intro bn below
    rw [tangled_kind] at below
    exact absurd below (Nat.not_lt_zero _)
  have linked : (Volume.ofDisk blank.sb (tangled.fs.disk rootdev)).Linked := by
    refine ⟨(by decide : (tangled.fs.table rootdev 1).type ≠ 0 ∧ (tangled.fs.table rootdev 1).nlink ≠ 0),?_⟩
    rintro k n ⟨_,j,name,low,_⟩
    rw [tangled_kind] at low
    exact absurd low (Nat.not_lt_zero _)
  obtain ⟨es,_,disk,all⟩ := claim 0 tangled k' ⟨fun a b f here => (nomatch here),fun a f here => (nomatch here),fun f _ => ⟨rfl,rfl⟩⟩
    ⟨counts,fun s t used used' _ _ => (one s used).trans (one t used').symm⟩ (fun _ => rfl)
    ⟨by decide,by decide,by decide,by decide,by decide⟩ rfl (fun s locked => absurd locked (unloaded s)) tangled_consistent
    (fun b low => bits b low) linked filled (Relation.ReflTransGen.single (Step.call _ _ .mknod r made)) enough
  have last := all es (List.suffix_refl es)
  rw [← disk] at last
  have ref : (Volume.ofDisk tangled.fs.sb (k'.fs.disk rootdev)).ref (1,0) = 3 :=
    (Volume.ref_direct _ (show 1 < blank.sb.slots by decide) (by decide)).trans addr
  have marked := last.held (1,0) type (by rw [ref]; decide)
  rw [ref] at marked
  have set : (k'.fs.disk rootdev 3 0).getLsbD 3 = true := marked
  rw [bit] at set
  cases set

end Lxos.Kernel
