import Lxos.Fs.Made
import Lxos.Kernel.Pins

/-! Lawful volumes under system calls. As long as blocks last, the volume evolves from an
earlier one without truncation, no directory is open for writing, and inodes with a mark,
the root among them, keep their slots. -/
namespace Lxos.Kernel
open Lxos.Bytes Lxos.Fs Lxos.Outcome

/-- What holds while blocks last. -/
structure Orderly (strict : Prop) (loose : Nat → Prop) (marks : List (Slot × Nat)) (origin : FsState)
    (hs : List Handle) (st : FsState) : Prop where
  lawful : Lawful strict loose st
  evolves : (origin.volume rootdev).Evolves (st.volume rootdev)
  uncut : Uncut origin st
  marked : ∀ m ∈ marks, (st.icache m.1).inum = m.2
  files : ∀ s, (s,Mode.write) ∈ hs → ((st.volume rootdev).inode (st.icache s).inum).type ≠ tDir

structure Tended (strict : Prop) (loose : Nat → Prop) (marks : List (Slot × Nat)) (origin : FsState)
    (hs : List Handle) (st : FsState) : Prop where
  counted : Counted hs st
  marked : ∀ m ∈ marks, (m.1,Mode.cwd) ∈ hs
  kept : st.exhausted = false → Orderly strict loose marks origin hs st

section tended
variable {strict : Prop} {loose : Nat → Prop} {marks : List (Slot × Nat)} {origin : FsState} {hs hs' : List Handle}
  {st st' : FsState} {ip dp s : Slot} {m : Mode}

theorem Counted.used (counted : Counted hs st) (member : (s,m) ∈ hs) : 0 < (st.icache s).ref :=
  Held.positive counted (List.mem_map.mpr ⟨_,member,rfl⟩)

/-- Loose inodes have a mark, so that they are referenced. -/
theorem Tended.rooted (tended : Tended strict loose marks origin hs st) (bound : ∀ n, loose n → ∃ s, (s,n) ∈ marks)
    (kept : Orderly strict loose marks origin hs st) : Rooted loose st := by
  intro n here
  obtain ⟨s,mark⟩ := bound n here
  have used := tended.counted.used (tended.marked _ mark)
  exact ⟨s,used,(kept.lawful.held s used).1,kept.marked _ mark⟩

/-- A step of the volume, the handles changing from `hs` to `hs'`. -/
theorem Tended.step (tended : Tended strict loose marks origin hs st) (counted : Counted hs' st')
    (trace : st.trace <:+ st'.trace) (cwd : ∀ s, (s,Mode.cwd) ∈ hs → (s,Mode.cwd) ∈ hs')
    (kept : st'.exhausted = false → Orderly strict loose marks origin hs st → Upkept strict loose st st' ∧
      ∀ s, (s,Mode.write) ∈ hs' → (s,Mode.write) ∈ hs ∨ ((st'.volume rootdev).inode (st'.icache s).inum).type ≠ tDir) :
    Tended strict loose marks origin hs' st' := by
  refine ⟨counted,fun m mark => cwd _ (tended.marked m mark),fun enough => ?_⟩
  have before := tended.kept (exhausted_of_suffix trace enough)
  obtain ⟨upkept,files⟩ := kept enough before
  refine ⟨upkept.lawful,before.evolves.trans upkept.evolves,before.uncut.trans upkept.uncut,fun m mark => ?_,fun s member => ?_⟩
  · exact (upkept.number _ (tended.counted.used (tended.marked m mark))).trans (before.marked m mark)
  · rcases files s member with old | new
    · have used := tended.counted.used old
      rw [upkept.number s used,upkept.evolves.type _ (before.lawful.held s used).2]
      exact before.files s old
    · exact new

theorem Tended.still (tended : Tended strict loose marks origin hs st) (calm : Calm st st')
    (kept : st'.exhausted = false → Lawful strict loose st → Lawful strict loose st' ∧
      (st.volume rootdev).Evolves (st'.volume rootdev) ∧ Uncut st st') : Tended strict loose marks origin hs st' := by
  refine tended.step (Held.calm tended.counted calm) calm.trace (fun _ => id) fun enough before => ?_
  obtain ⟨lawful,evolves,uncut⟩ := kept enough before.lawful
  exact ⟨⟨lawful,evolves,uncut,fun s _ => calm.inum s⟩,fun s => Or.inl⟩

theorem Tended.perm (tended : Tended strict loose marks origin hs st) (same : hs.Perm hs') :
    Tended strict loose marks origin hs' st := by
  refine ⟨counted_guard.perm tended.counted same,fun m mark => same.mem_iff.mp (tended.marked m mark),fun enough => ?_⟩
  obtain ⟨lawful,evolves,uncut,marked,files⟩ := tended.kept enough
  exact ⟨lawful,evolves,uncut,marked,fun s member => files s (same.mem_iff.mpr member)⟩

theorem Tended.print (tended : Tended strict loose marks origin hs st) {m : Message} (blocks : m ≠ .ballocOut)
    (inodes : m ≠ .iallocOut) : Tended strict loose marks origin hs (kprint st m) := by
  have idle := kprint_idle st (m := m) ⟨blocks,inodes⟩
  refine tended.still ((emit_io st _).toLocal 0).calm fun _ lawful => ⟨lawful.idle idle,?_,kprint_uncut st m⟩
  rw [idle.volume]
  exact Volume.Evolves.refl _

theorem Tended.stack (tended : Tended strict loose marks origin hs st) (b : Buffer) :
    Tended strict loose marks origin hs { st with stack := b } := by
  refine tended.step (counted_guard.stack b tended.counted) (List.suffix_refl _) (fun _ => id) fun _ before => ?_
  obtain ⟨volume,unique,held,saved,stored⟩ := before.lawful
  exact ⟨⟨⟨volume,unique,held,saved,stored⟩,Volume.Evolves.refl _,.quiet rfl,fun _ _ => rfl⟩,fun s => Or.inl⟩

theorem Tended.grant (tended : Tended strict loose marks origin ((ip,.read) :: hs) st)
    (valid : (st.icache ip).valid = true) (regular : (st.icache ip).type ≠ tDir) :
    Tended strict loose marks origin ((ip,.write) :: hs) st := by
  refine tended.step tended.counted (List.suffix_refl _) (fun s member => ?_) fun _ before => ?_
  · exact List.mem_cons_of_mem _ (List.mem_of_ne_of_mem (fun same => by cases same) member)
  · refine ⟨Upkept.refl before.lawful,fun s member => ?_⟩
    rcases List.mem_cons.mp member with same | old
    · obtain ⟨rfl,_⟩ := Prod.mk.inj same
      rw [(before.lawful.ready (tended.counted.used List.mem_cons_self) valid).copy]
      exact Or.inr regular
    · exact Or.inl (List.mem_cons_of_mem _ old)

theorem Tended.weaken (tended : Tended strict loose marks origin ((ip,.write) :: hs) st) :
    Tended strict loose marks origin ((ip,.read) :: hs) st := by
  refine tended.step tended.counted (List.suffix_refl _) (fun s member => ?_) fun _ before => ?_
  · exact List.mem_cons_of_mem _ (List.mem_of_ne_of_mem (fun same => by cases same) member)
  · refine ⟨Upkept.refl before.lawful,fun s member => ?_⟩
    exact Or.inl (List.mem_cons_of_mem _ (List.mem_of_ne_of_mem (fun same => by cases same) member))

theorem Tended.got (tended : Tended strict loose marks origin hs st) {k : Nat} (counted : Counted ((ip,.read) :: hs) st')
    (got : Got rootdev k ip st st')
    (in_use : Lawful strict loose st → ((st.volume rootdev).inode k).type ≠ 0) :
    Tended strict loose marks origin ((ip,.read) :: hs) st' := by
  refine tended.step counted (by rw [got.trace]) (fun _ => List.mem_cons_of_mem _) fun _ before => ?_
  refine ⟨⟨got.lawful before.lawful (in_use before.lawful),?_,.quiet got.trace,fun s => got.number⟩,fun s member => ?_⟩
  · rw [got.volume before.lawful.unique rootdev]
    exact Volume.Evolves.refl _
  · exact Or.inl (List.mem_of_ne_of_mem (fun same => by cases same) member)

theorem Tended.root (tended : Tended strict loose marks origin hs st) (room : hs.length < 50) :
    Meets Tolerated (iget st rootdev rootino) (fun r => Tended strict loose marks origin ((r.1,.read) :: hs) r.2) := by
  refine (Held.iget tended.counted (by rw [List.length_map]; exact room) rootdev rootino).mono fun r got => ?_
  exact tended.got got.2 got.1 fun lawful => lawful.volume.root

theorem Tended.dup (tended : Tended strict loose marks origin hs st) (member : (ip,m) ∈ hs) :
    Tended strict loose marks origin ((ip,.read) :: hs) (idup st ip) := by
  have used := tended.counted.used member
  refine tended.step (counted_guard.dup tended.counted member) (List.suffix_refl _) (fun _ => List.mem_cons_of_mem _)
    fun _ before => ?_
  obtain ⟨volume,lawful⟩ := before.lawful.idup used
  refine ⟨⟨lawful,?_,setInode_uncut _ _ _,fun s _ => (recount_field st ip _ s).2.1⟩,fun s member => ?_⟩
  · rw [volume]
    exact Volume.Evolves.refl _
  · exact Or.inl (List.mem_of_ne_of_mem (fun same => by cases same) member)

theorem Tended.lock (tended : Tended strict loose marks origin hs st) (member : (ip,m) ∈ hs) :
    Tended strict loose marks origin hs (ilock st ip) := by
  refine tended.still (ilock_calm st ip) fun _ lawful => ?_
  have named := lawful.named (tended.counted.used member)
  have loaded := ilock_loaded named
  refine ⟨loaded.lawful named lawful,?_,ilock_uncut st ip⟩
  rw [loaded.volume named]
  exact Volume.Evolves.refl _

/-- A mark is a reference of its own. -/
theorem Tended.stays (tended : Tended strict loose marks origin ((ip,.read) :: hs) st)
    (bound : ∀ n, loose n → ∃ s, (s,n) ∈ marks) (kept : Orderly strict loose marks origin ((ip,.read) :: hs) st)
    (here : loose (st.icache ip).inum) : 1 < (st.icache ip).ref := by
  obtain ⟨s,mark⟩ := bound _ here
  have lawful := kept.lawful
  have member := tended.marked _ mark
  have number := kept.marked _ mark
  have used := tended.counted.used member
  have used' : 0 < (st.icache ip).ref := tended.counted.used List.mem_cons_self
  obtain rfl := lawful.unique s ip used used' ((lawful.held s used).1.trans (lawful.held ip used').1.symm) number
  have inside : s ∈ hs.map Prod.fst :=
    List.mem_map.mpr ⟨_,List.mem_of_ne_of_mem (fun same => by cases same) member,rfl⟩
  have count : (st.icache s).ref = _ := tended.counted.counts s
  rw [List.map_cons,List.count_cons_self] at count
  have := List.count_pos_iff.mpr inside
  omega

theorem Tended.put (tended : Tended strict loose marks origin ((ip,.read) :: hs) st)
    (bound : ∀ n, loose n → ∃ s, (s,n) ∈ marks) : Tended strict loose marks origin hs (iput st ip) := by
  have used : 0 < (st.icache ip).ref := tended.counted.used List.mem_cons_self
  refine tended.step (counted_guard.put tended.counted) (iput_trace st ip)
    (fun s member => List.mem_of_ne_of_mem (fun same => by cases same) member) fun _ before => ?_
  obtain ⟨volume,lawful⟩ := before.lawful.iput used (tended.stays bound before)
  refine ⟨⟨lawful,?_,.quiet ?_,fun s _ => ?_⟩,fun s member => Or.inl (List.mem_cons_of_mem _ member)⟩
  · rw [volume]
    exact Volume.Evolves.refl _
  · rw [before.lawful.iput_eq used]
    rfl
  · rw [before.lawful.iput_eq used]
    exact (recount_field st ip _ s).2.1

theorem Tended.read (tended : Tended strict loose marks origin hs st) (member : (ip,m) ∈ hs)
    (valid : (st.icache ip).valid = true) (dst : Buffer) (off : Nat) {n : Nat} (width : n < 4294967296) :
    Tended strict loose marks origin hs (readi st ip dst off n).2.2 := by
  refine tended.still (readi_mapped st ip dst off n).toLocal.calm fun enough lawful => ?_
  have ready := lawful.ready (tended.counted.used member) valid
  obtain ⟨kept,evolves⟩ := (readi_seen ready dst off width (Or.inr enough)).1.lawful lawful ready
  exact ⟨kept,evolves,readi_uncut st ip dst off n⟩

theorem Tended.write (tended : Tended strict loose marks origin hs st) (member : (ip,Mode.write) ∈ hs)
    (valid : (st.icache ip).valid = true) (src : Buffer) (off : Nat) {n : Nat} (width : n < 4294967296) :
    Tended strict loose marks origin hs (writei st ip src off n).2 := by
  have calm := (writei_local st ip src off n).calm
  refine tended.step (Held.calm tended.counted calm) calm.trace (fun _ => id) fun enough before => ?_
  have ready := before.lawful.ready (tended.counted.used member) valid
  have file := before.files ip member
  rw [ready.copy] at file
  have written : Lawful strict loose (writei st ip src off n).2 ∧
      (st.volume rootdev).Evolves ((writei st ip src off n).2.volume rootdev) := by
    rcases eq_or_ne (st.icache ip).type tDev with device | regular
    · rw [writei_device device]
      exact ⟨before.lawful,Volume.Evolves.refl _⟩
    by_cases bad : off > (st.icache ip).size.toNat ∨ 71680 < off + n
    · rw [writei_refused regular width bad]
      exact ⟨before.lawful,Volume.Evolves.refl _⟩
    · have tight : ¬loose (st.icache ip).inum := fun here => file (by
        rw [← ready.copy]
        exact before.lawful.volume.directory _ here)
      obtain ⟨start,room⟩ := not_or.mp bad
      exact (writei_wrote ready regular (before.lawful.volume.filled _ tight) (Nat.not_lt.mp start) (Nat.not_lt.mp room)
        enough).2.lawful before.lawful ready (Nat.not_lt.mp room) file
  exact ⟨⟨written.1,written.2,writei_uncut st ip src off n,fun s _ => calm.inum s⟩,fun s => Or.inl⟩

theorem trace_since {n : Nat} {held : List (Nat × Nat)} (nests : Nests n held st st') : st.trace <:+ st'.trace := by
  obtain ⟨es,since,_⟩ := nests
  exact ⟨es,since.symm⟩

theorem Tended.lookup (tended : Tended strict loose marks origin hs st) (room : hs.length < 50) (member : (dp,m) ∈ hs)
    (dir : IsDir st dp) (name : Buffer) : Meets Tolerated (dirlookup st dp name) (fun r =>
      match r.1 with
      | none => Tended strict loose marks origin hs r.2 ∧ IsDir r.2 dp
      | some (ip,_) => Tended strict loose marks origin ((ip,.read) :: hs) r.2) := by
  have ready (before : Orderly strict loose marks origin hs st) := before.lawful.ready (tended.counted.used member) dir.1
  have counted := counted_guard.lookup name tended.counted room member dir
  cases looking : dirlookup st dp name with
  | error e =>
    rw [looking] at counted
    exact counted
  | ok r =>
    have uncut := (dirlookup_uncut st dp name).elim looking
    have trace := trace_since ((dirlookup_nests st dp name).elim looking)
    replace counted := counted.elim looking
    obtain ⟨_ | ⟨ip,off⟩,st1⟩ := r
    · refine ⟨tended.step counted.1 trace (fun _ => id) fun enough before => ?_,counted.2⟩
      obtain ⟨seen,_⟩ := dirlookup_looked (before.lawful.scan (ready before) dir.2) looking (Or.inr enough)
      obtain ⟨lawful,evolves⟩ := seen.lawful before.lawful (ready before)
      exact ⟨⟨lawful,evolves,uncut,fun s _ => seen.grown.change.inum s⟩,fun s => Or.inl⟩
    · refine tended.step counted trace (fun _ => List.mem_cons_of_mem _) fun enough before => ?_
      obtain ⟨lawful,evolves,st0,k,seen,got⟩ := before.lawful.found (ready before) dir.2 looking enough
      refine ⟨⟨lawful,evolves,uncut,fun s used => ?_⟩,fun s member => ?_⟩
      · exact (got.number (by rw [seen.grown.change.ref]; exact used)).trans (seen.grown.change.inum s)
      · exact Or.inl (List.mem_of_ne_of_mem (fun same => by cases same) member)

theorem one_link : (1 : BitVec 16) ≠ 0 := by decide

theorem Tended.make (tended : Tended strict loose marks origin ((dp,.read) :: hs) st) (dir : IsDir st dp)
    {type : BitVec 16} (some_type : type ≠ 0) (regular : type ≠ tDir) (major minor : BitVec 16) {st1 : FsState}
    (counted : Counted ((ip,.write) :: (dp,.read) :: hs) (createInode st1 ip major minor))
    (ok : ialloc st (st.icache dp).dev type = .ok (some ip,st1)) :
    Tended strict loose marks origin ((ip,.write) :: (dp,.read) :: hs) (createInode st1 ip major minor) ∧
      ((createInode st1 ip major minor).exhausted = false →
        IsDir (createInode st1 ip major minor) dp ∧ 1 ≤ ((createInode st1 ip major minor).icache ip).inum) := by
  have used : 0 < (st.icache dp).ref := tended.counted.used List.mem_cons_self
  have trace : st.trace <:+ (createInode st1 ip major minor).trace :=
    (trace_since ((ialloc_nests st _ type).elim ok)).trans (trace_since (createInode_nests st1 ip major minor))
  have uncut : Uncut st (createInode st1 ip major minor) :=
    ((ialloc_uncut st _ type).elim ok).trans
      (((ilock_uncut st1 ip).trans (setDinode_uncut _ ip _)).trans (iupdate_uncut _ ip))
  have made (kept : Orderly strict loose marks origin ((dp,.read) :: hs) st) : ∃ k,
      Made k { Dinode.zero with type := type,major := major,minor := minor,nlink := 1 } ip st
        (createInode st1 ip major minor) := by
    rw [(kept.lawful.held dp used).1] at ok
    obtain ⟨k,claimed⟩ := iallocLoop_claimed _ (le_refl 1) ok
    exact ⟨k,kept.lawful.made claimed⟩
  generalize createInode st1 ip major minor = st2 at counted trace uncut made ⊢
  have apart {k : Nat} {d : Dinode} (made : Made k d ip st st2) {s : Slot} (used : 0 < (st.icache s).ref) : s ≠ ip := by
    rintro rfl
    rw [made.vacant] at used
    exact lt_irrefl 0 used
  refine ⟨tended.step counted trace (fun _ => List.mem_cons_of_mem _) fun enough before => ?_,fun enough => ?_⟩
  · obtain ⟨k,made⟩ := made before
    obtain ⟨lawful,evolves,self⟩ := made.lawful before.lawful some_type regular one_link rfl fun _ => rfl
    refine ⟨⟨lawful,evolves,uncut,fun s used => by rw [made.other s (apart made used)]⟩,fun s member => ?_⟩
    rcases List.mem_cons.mp member with same | old
    · obtain ⟨rfl,_⟩ := Prod.mk.inj same
      rw [made.self]
      dsimp only
      rw [self]
      exact Or.inr regular
    · exact Or.inl old
  · obtain ⟨k,made⟩ := made (tended.kept (exhausted_of_suffix trace enough))
    unfold IsDir
    rw [made.other dp (apart made used),made.self]
    exact ⟨dir,made.positive⟩

theorem Tended.link (tended : Tended strict loose marks origin hs st) (bound : ∀ n, loose n → ∃ s, (s,n) ∈ marks)
    (room : hs.length < 50) {m' : Mode} (parent : (dp,m) ∈ hs) (member : (ip,m') ∈ hs)
    (ready : st.exhausted = false → IsDir st dp ∧ 1 ≤ (st.icache ip).inum) (name : Buffer) :
    Meets Tolerated (dirlink st dp name (st.icache ip).inum) (fun r => Tended strict loose marks origin hs r.2) := by
  have counted := Held.dirlink tended.counted (by rw [List.length_map]; exact room) dp name (st.icache ip).inum
  cases linking : dirlink st dp name (st.icache ip).inum with
  | error e =>
    rw [linking] at counted
    exact counted
  | ok r =>
    have trace := trace_since ((dirlink_nests st dp name (st.icache ip).inum).elim linking)
    refine tended.step (counted.elim linking) trace (fun _ => id) fun enough before => ?_
    obtain ⟨dir,positive⟩ := ready (exhausted_of_suffix trace enough)
    exact ⟨before.lawful.dirlink (tended.rooted bound before) (before.lawful.ready (tended.counted.used parent) dir.1)
      dir.2 positive (before.lawful.held ip (tended.counted.used member)).2 linking enough,fun s => Or.inl⟩

theorem Tended.unlockput (tended : Tended strict loose marks origin ((ip,.read) :: hs) st)
    (bound : ∀ n, loose n → ∃ s, (s,n) ∈ marks) : Tended strict loose marks origin hs (iunlockput st ip) := by
  unfold iunlockput iunlock
  split
  · exact (tended.print (by decide) (by decide)).put bound
  · exact tended.put bound

theorem Tended.enter (tended : Tended strict loose marks origin ((dp,.read) :: hs) st)
    (bound : ∀ n, loose n → ∃ s, (s,n) ∈ marks) (room : hs.length < 48) (dir : IsDir st dp) (name : Buffer)
    {type : BitVec 16} (some_type : type ≠ 0) (regular : type ≠ tDir) (major minor : BitVec 16) :
    Meets Tolerated (createNew st dp name type major minor)
      (fun r => Tended strict loose marks origin ((r.1,.write) :: hs) r.2) := by
  refine createNew_met tended.counted room name regular major minor (fun tended => tended.perm)
    (fun tended => tended.print (by decide) (by decide)) (fun tended => tended.unlockput bound) fun ip st1 ok counted => ?_
  obtain ⟨made,ready⟩ := tended.make dir some_type regular major minor counted ok
  have length : ((ip,Mode.write) :: (dp,Mode.read) :: hs).length < 50 := by
    rw [List.length_cons,List.length_cons]
    omega
  exact made.link bound length (List.mem_cons_of_mem _ List.mem_cons_self) List.mem_cons_self ready name

theorem tended_guard (origin : FsState) (bound : ∀ n, loose n → ∃ s, (s,n) ∈ marks) :
    Guard (Tended strict loose marks origin) where
  perm := fun tended => tended.perm
  print := fun _ tended blocks inodes => tended.print blocks inodes
  stack := fun b tended => tended.stack b
  grant := fun tended => tended.grant
  weaken := fun tended => tended.weaken
  root := fun tended => tended.root
  dup := fun tended => tended.dup
  lock := fun tended => tended.lock
  put := fun tended => tended.put bound
  read := fun dst off _ tended member valid => tended.read member valid dst off
  write := fun src off _ tended member valid => tended.write member valid src off
  lookup := fun name tended room member dir => tended.lookup room member dir name
  enter := fun name _ major minor tended room dir some_type regular =>
    tended.enter bound room dir name some_type regular major minor

end tended

end Lxos.Kernel
