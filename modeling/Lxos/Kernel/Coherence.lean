import Lxos.Kernel.Session

/-! Tidy file systems under system calls. As long as there are blocks and inodes, every call
leaves a tidy one, for which no directory is open for writing. -/
namespace Lxos.Kernel
open Lxos.Bytes Lxos.Fs Lxos.Utils Lxos.Outcome Lxos.Inventory

structure Neat (hs : List Handle) (st : FsState) : Prop where
  counted : Counted hs st
  tidy : st.exhausted = false → Tidy False st
  files : st.exhausted = false → ∀ s, (s,Mode.write) ∈ hs → ((st.volume rootdev).inode (st.icache s).inum).type ≠ tDir

section neat
variable {hs hs' : List Handle} {st st' : FsState} {ip dp s : Slot} {m : Mode}

/-- A step of the file system, the handles changing from `hs` to `hs'`. -/
theorem Neat.step (neat : Neat hs st) (counted : Counted hs' st') (trace : st.trace <:+ st'.trace)
    (kept : st'.exhausted = false → Tidy False st → Tidy False st' ∧ Lasting st st')
    (files : st'.exhausted = false → Tidy False st → ∀ s, (s,Mode.write) ∈ hs' → (s,Mode.write) ∈ hs ∨
      ((st'.volume rootdev).inode (st'.icache s).inum).type ≠ tDir) : Neat hs' st' := by
  refine ⟨counted,fun enough => ?_,fun enough s member => ?_⟩
  · exact (kept enough (neat.tidy (exhausted_of_suffix trace enough))).1
  · have enough' := exhausted_of_suffix trace enough
    have tidy := neat.tidy enough'
    rcases files enough tidy s member with old | new
    · obtain ⟨inum,type⟩ := (kept enough tidy).2 s (neat.counted.used old) (counted.used member)
      rw [inum]
      rcases type with same | change
      · rw [same]
        exact neat.files enough' s old
      · exact change.2
    · exact new

theorem Neat.still (neat : Neat hs st) (calm : Calm st st')
    (kept : st'.exhausted = false → Tidy False st → Tidy False st' ∧ Lasting st st') : Neat hs st' :=
  neat.step (Held.calm neat.counted calm) calm.trace kept fun _ _ _ => Or.inl

theorem Neat.perm (neat : Neat hs st) (same : hs.Perm hs') : Neat hs' st :=
  ⟨counted_guard.perm neat.counted same,neat.tidy,fun enough s member => neat.files enough s (same.mem_iff.mpr member)⟩

theorem Neat.print (neat : Neat hs st) {m : Message} (blocks : m ≠ .ballocOut) (inodes : m ≠ .iallocOut) :
    Neat hs (kprint st m) := by
  have idle := kprint_idle st (m := m) ⟨blocks,inodes⟩
  refine neat.still ((emit_io st _).toLocal 0).calm fun _ tidy => ?_
  obtain ⟨tidy',volume⟩ := tidy.idle idle
  exact ⟨tidy',Lasting.still volume fun s _ => by rw [idle.icache]⟩

theorem Neat.stack (neat : Neat hs st) (b : Buffer) : Neat hs { st with stack := b } := by
  refine neat.step (counted_guard.stack b neat.counted) (List.suffix_refl _) (fun _ tidy => ?_) fun _ _ _ => Or.inl
  obtain ⟨volume,unique,coherent,super,held⟩ := tidy
  exact ⟨⟨volume,unique,coherent,super,held⟩,Lasting.still rfl fun _ _ => rfl⟩

theorem Neat.grant (neat : Neat ((ip,.read) :: hs) st) (valid : (st.icache ip).valid = true)
    (regular : (st.icache ip).type ≠ tDir) : Neat ((ip,.write) :: hs) st := by
  refine neat.step neat.counted (List.suffix_refl _) (fun _ tidy => ⟨tidy,Lasting.refl st⟩) fun _ tidy s member => ?_
  rcases List.mem_cons.mp member with same | old
  · obtain ⟨rfl,_⟩ := Prod.mk.inj same
    rw [(tidy.ready (neat.counted.used List.mem_cons_self) valid).copy]
    exact Or.inr regular
  · exact Or.inl (List.mem_cons_of_mem _ old)

/-- A handle to write that is still there after another one was given back. -/
theorem write_rest (given : m ≠ .write) (member : (s,Mode.write) ∈ (ip,m) :: hs) : (s,Mode.write) ∈ hs :=
  List.mem_of_ne_of_mem (fun same => given (congrArg Prod.snd same).symm) member

theorem Neat.weaken (neat : Neat ((ip,.write) :: hs) st) : Neat ((ip,.read) :: hs) st := by
  refine neat.step neat.counted (List.suffix_refl _) (fun _ tidy => ⟨tidy,Lasting.refl st⟩) fun _ _ s member => ?_
  exact Or.inl (List.mem_cons_of_mem _ (write_rest (by decide) member))

theorem Neat.root (neat : Neat hs st) (room : hs.length < 50) :
    Meets Tolerated (iget st rootdev rootino) (fun r => Neat ((r.1,.read) :: hs) r.2) := by
  refine (Held.iget neat.counted (by rw [List.length_map]; exact room) rootdev rootino).mono fun r got => ?_
  refine neat.step got.2 (by rw [got.1.trace]) (fun _ tidy => ?_) fun _ _ s member => Or.inl (write_rest (by decide) member)
  obtain ⟨tidy',volume⟩ := tidy.got got.1 tidy.volume.root
  exact ⟨tidy',Lasting.still volume fun s => got.1.number⟩

theorem Neat.dup (neat : Neat hs st) (member : (ip,m) ∈ hs) : Neat ((ip,.read) :: hs) (idup st ip) := by
  have used := neat.counted.used member
  refine neat.step (counted_guard.dup neat.counted member) (List.suffix_refl _) (fun _ tidy => ?_)
    fun _ _ s member => Or.inl (write_rest (by decide) member)
  obtain ⟨tidy',volume⟩ := tidy.recount (r := (st.icache ip).ref + 1) fun _ => used
  exact ⟨tidy',Lasting.still volume fun s _ => (recount_field st ip _ s).2.1⟩

theorem Neat.lock (neat : Neat hs st) (member : (ip,m) ∈ hs) : Neat hs (ilock st ip) := by
  have calm := ilock_calm st ip
  refine neat.still calm fun _ tidy => ?_
  obtain ⟨tidy',volume⟩ := tidy.loaded (neat.counted.used member)
  exact ⟨tidy',Lasting.still volume fun s _ => calm.inum s⟩

theorem Neat.put (neat : Neat ((ip,.read) :: hs) st) : Neat hs (iput st ip) :=
  neat.step (counted_guard.put neat.counted) (iput_trace st ip)
    (fun _ tidy => tidy.iput (neat.counted.used List.mem_cons_self))
    fun _ _ _ member => Or.inl (List.mem_cons_of_mem _ member)

theorem Neat.read (neat : Neat hs st) (member : (ip,m) ∈ hs) (valid : (st.icache ip).valid = true)
    (dst : Buffer) (off : Nat) {n : Nat} (width : n < 4294967296) : Neat hs (readi st ip dst off n).2.2 := by
  refine neat.still (readi_mapped st ip dst off n).toLocal.calm fun _ tidy => ?_
  have idle := tidy.read (neat.counted.used member) valid False.elim dst off width
  obtain ⟨tidy',volume⟩ := tidy.idle idle
  exact ⟨tidy',Lasting.still volume fun s _ => by rw [idle.icache]⟩

theorem Neat.write (neat : Neat hs st) (member : (ip,Mode.write) ∈ hs) (valid : (st.icache ip).valid = true)
    (src : Buffer) (off : Nat) {n : Nat} (width : n < 4294967296) : Neat hs (writei st ip src off n).2 := by
  have used := neat.counted.used member
  have calm := (writei_local st ip src off n).calm
  refine neat.still calm fun enough tidy => ?_
  have file := neat.files (exhausted_of_suffix calm.trace enough) ip member
  rw [(tidy.ready used valid).copy] at file
  exact tidy.write used valid False.elim file width enough

theorem Neat.lookup (neat : Neat hs st) (room : hs.length < 50) (member : (dp,m) ∈ hs)
    (dir : IsDir st dp) (name : Buffer) : Meets Tolerated (dirlookup st dp name) (fun r =>
      match r.1 with
      | none => Neat hs r.2 ∧ IsDir r.2 dp
      | some (ip,_) => Neat ((ip,.read) :: hs) r.2) := by
  have counted := counted_guard.lookup name neat.counted room member dir
  cases looking : dirlookup st dp name with
  | error e =>
    rw [looking] at counted
    exact counted
  | ok r =>
    have trace := trace_since ((dirlookup_nests st dp name).elim looking)
    have looked (tidy : Tidy False st) := tidy.looked (tidy.ready (neat.counted.used member) dir.1) dir.2 looking
    replace counted := counted.elim looking
    obtain ⟨_ | ⟨ip,off⟩,st1⟩ := r
    · refine ⟨neat.step counted.1 trace (fun _ tidy => ?_) fun _ _ _ => Or.inl,counted.2⟩
      have idle := looked tidy
      obtain ⟨tidy',volume⟩ := tidy.idle idle
      exact ⟨tidy',Lasting.still volume fun s _ => by rw [idle.icache]⟩
    · refine neat.step counted trace (fun _ tidy => ?_) fun _ _ s member => Or.inl (write_rest (by decide) member)
      obtain ⟨st0,n,idle,got,place⟩ := looked tidy
      exact tidy.found idle got place


theorem Neat.make (neat : Neat ((dp,.read) :: hs) st) (dir : IsDir st dp) {type : BitVec 16} (regular : type ≠ tDir)
    (major minor : BitVec 16) {st1 : FsState}
    (counted : Counted ((ip,.write) :: (dp,.read) :: hs) (createInode st1 ip major minor))
    (ok : ialloc st (st.icache dp).dev type = .ok (some ip,st1)) :
    Neat ((ip,.write) :: (dp,.read) :: hs) (createInode st1 ip major minor) ∧
      ((createInode st1 ip major minor).exhausted = false → IsDir (createInode st1 ip major minor) dp) := by
  have used : 0 < (st.icache dp).ref := neat.counted.used List.mem_cons_self
  have trace : st.trace <:+ (createInode st1 ip major minor).trace :=
    (trace_since ((ialloc_nests st _ type).elim ok)).trans (trace_since (createInode_nests st1 ip major minor))
  have created (tidy : Tidy False st) : Created False type ip st (createInode st1 ip major minor) := by
    rw [(tidy.held dp used).1] at ok
    obtain ⟨k,claimed⟩ := iallocLoop_claimed _ (le_refl 1) ok
    exact tidy.created claimed major minor
  generalize createInode st1 ip major minor = st2 at counted trace created ⊢
  refine ⟨neat.step counted trace (fun _ tidy => ⟨(created tidy).tidy,(created tidy).lasting (Or.inl regular)⟩) fun _ tidy s member => ?_,
    fun enough => ?_⟩
  · rcases List.mem_cons.mp member with same | old
    · obtain ⟨rfl,_⟩ := Prod.mk.inj same
      have created := created tidy
      rw [(created.tidy.ready created.used created.valid).copy]
      rcases created.type with kind | zero
      · rw [kind]
        exact Or.inr regular
      · rw [zero]
        exact Or.inr (by decide)
    · exact Or.inl old
  · have tidy := neat.tidy (exhausted_of_suffix trace enough)
    have apart := (created tidy).apart dp used (by
      rw [(tidy.ready used dir.1).copy,dir.2]
      decide)
    unfold IsDir
    rw [(created tidy).other dp apart]
    exact dir

theorem Neat.link (neat : Neat hs st) (room : hs.length < 50) {m' : Mode} (parent : (dp,m) ∈ hs) (member : (ip,m') ∈ hs)
    (dir : st.exhausted = false → IsDir st dp) (name : Buffer) :
    Meets Tolerated (dirlink st dp name (st.icache ip).inum) (fun r => Neat hs r.2) := by
  have counted := Held.dirlink neat.counted (by rw [List.length_map]; exact room) dp name (st.icache ip).inum
  cases linking : dirlink st dp name (st.icache ip).inum with
  | error e =>
    rw [linking] at counted
    exact counted
  | ok r =>
    have trace := trace_since ((dirlink_nests st dp name (st.icache ip).inum).elim linking)
    refine neat.step (counted.elim linking) trace (fun enough tidy => ?_) fun _ _ _ => Or.inl
    obtain ⟨valid,type⟩ := dir (exhausted_of_suffix trace enough)
    have place := (tidy.held ip (neat.counted.used member)).2
    obtain ⟨tidy',lasting,_⟩ := tidy.dirlink (tidy.ready (neat.counted.used parent) valid) type place linking enough
    exact ⟨tidy',lasting⟩

theorem Neat.unlockput (neat : Neat ((ip,.read) :: hs) st) : Neat hs (iunlockput st ip) := by
  unfold iunlockput iunlock
  split
  · exact (neat.print (by decide) (by decide)).put
  · exact neat.put

theorem Neat.enter (neat : Neat ((dp,.read) :: hs) st) (room : hs.length < 48) (dir : IsDir st dp) (name : Buffer)
    {type : BitVec 16} (regular : type ≠ tDir) (major minor : BitVec 16) :
    Meets Tolerated (createNew st dp name type major minor) (fun r => Neat ((r.1,.write) :: hs) r.2) := by
  refine createNew_met neat.counted room name regular major minor (fun neat => neat.perm)
    (fun neat => neat.print (by decide) (by decide)) (fun neat => neat.unlockput) fun ip st1 ok counted => ?_
  obtain ⟨made,dir⟩ := neat.make dir regular major minor counted ok
  have length : ((ip,Mode.write) :: (dp,Mode.read) :: hs).length < 50 := by
    rw [List.length_cons,List.length_cons]
    omega
  exact made.link length (List.mem_cons_of_mem _ List.mem_cons_self) List.mem_cons_self dir name

theorem neat_guard : Guard Neat where
  perm := fun neat => neat.perm
  print := fun _ neat blocks inodes => neat.print blocks inodes
  stack := fun b neat => neat.stack b
  grant := fun neat => neat.grant
  weaken := fun neat => neat.weaken
  root := fun neat => neat.root
  dup := fun neat => neat.dup
  lock := fun neat => neat.lock
  put := fun neat => neat.put
  read := fun dst off _ neat member valid => neat.read member valid dst off
  write := fun src off _ neat member valid => neat.write member valid src off
  lookup := fun name neat room member dir => neat.lookup room member dir name
  enter := fun name _ major minor neat room dir _ regular => neat.enter room dir name regular major minor

/-- No directory is open for writing. -/
def DirsReadOnly (k : State) : Prop := ∀ f, 0 < (k.file f).ref → (k.file f).type = .inode → (k.file f).writable = true →
  ((k.fs.volume rootdev).inode (k.fs.icache (k.file f).ip).inum).type ≠ tDir

theorem neat_start {k : State} (counted : Counted k.handles k.fs) (tidy : Tidy False k.fs) (files : DirsReadOnly k) :
    Neat k.handles k.fs := by
  refine ⟨counted,fun _ => tidy,fun _ s member => ?_⟩
  rcases List.mem_cons.mp member with cwd | member
  · cases congrArg Prod.snd cwd
  · obtain ⟨f,_,handle⟩ := mem_inventory.mp member
    unfold File.handle at handle
    split at handle
    · rename_i here
      obtain ⟨rfl,mode⟩ := Prod.mk.inj (Option.some.inj handle)
      refine files f here.1 here.2 ?_
      by_contra not
      rw [if_neg not] at mode
      cases mode
    · cases handle


end neat

/-- As long as blocks and inodes last, system calls keep the cache coherent, and files without
holes. The disk alone holds every file then, and reading does not change it. -/
theorem cache_coherent {data : Nat} {k k' : State} (table : Table k.file k.proc.ofile) (counted : Counted k.handles k.fs)
    (tidy : Tidy False k.fs) (files : DirsReadOnly k) (run : Run data k k') (enough : k'.fs.exhausted = false) :
    (∀ s, k'.fs.Locked rootdev s → (k'.fs.icache s).toDinode = k'.fs.table rootdev (k'.fs.icache s).inum) ∧
    (∀ n, ((k'.fs.volume rootdev).inode n).type ≠ tDev → (k'.fs.volume rootdev).Filled n) ∧
    k'.fs.volume rootdev = Volume.ofDisk k'.fs.sb (k'.fs.disk rootdev) ∧
    (∀ ip dst off n, n < 4294967296 → 0 < (k'.fs.icache ip).ref → (k'.fs.icache ip).valid = true →
      (readi k'.fs ip dst off n).2.2.disk = k'.fs.disk) ∧
    ∀ dp name r, 0 < (k'.fs.icache dp).ref → (k'.fs.icache dp).valid = true → (k'.fs.icache dp).type = tDir →
      dirlookup k'.fs dp name = .ok r → r.2.disk = k'.fs.disk := by
  have safe : Safe (Neat) k := ⟨table,neat_start counted tidy files⟩
  have after := (safe.run neat_guard run).inv.tidy enough
  refine ⟨after.coherent,fun n regular => after.volume.filled n regular False.elim,after.mounted.volume,fun ip dst off n width used valid => ?_,
    fun dp name r used valid type ok => ?_⟩
  · exact (after.read used valid False.elim dst off width).disk
  · have looked := after.looked (after.ready used valid) type ok
    obtain ⟨_ | ⟨ip,off⟩,st'⟩ := r
    · exact looked.disk
    · obtain ⟨st1,n,idle,got,_⟩ := looked
      exact got.disk.trans idle.disk

/-- A fresh image of one empty file, before the first call. -/
theorem cache_coherent_start : ∃ image, mkfs [emptyFile] = some image ∧
    (uinitState ⟨fun _ _ => .zero,fun _ => zeros,[],[]⟩ 1 2 (fun _ => image.sectors) zeros).fs.volume rootdev =
      Volume.ofDisk (uinitState ⟨fun _ _ => .zero,fun _ => zeros,[],[]⟩ 1 2 (fun _ => image.sectors) zeros).fs.sb image.sectors := by
  obtain ⟨image,made⟩ := @mkfs_room [emptyFile] (by decide) (by decide)
  obtain ⟨t,lists,finished,blank⟩ := mkfs_blank (by decide) made
  have safe := uinitState_safe ⟨fun _ _ => .zero,fun _ => zeros,[],[]⟩ 1 2 (fun _ => image.sectors) zeros
  have tidy := @uinitState_tidy False _ _ _ (fun _ => image.sectors) lists finished (by decide) (by decide) blank rfl
    ⟨fun _ _ => .zero,fun _ => zeros,[],[]⟩ 1 2 zeros
  have law := @cache_coherent 0 _ _ safe.table safe.inv tidy.1 (fun f used => absurd used (lt_irrefl 0))
    Relation.ReflTransGen.refl rfl
  exact ⟨image,made,law.2.2.1⟩

/-- An empty directory, and a free dinode with a size. -/
def vacant : Dinode := { Dinode.zero with type := tDir,nlink := 1 }
def hole : Dinode := { Dinode.zero with size := 512 }

/-- The process has inode 2 open to read, which is free, and asks for its first byte. -/
def hollow : State where
  fs := ⟨fun _ b => if b = 2 then hole.encode (vacant.encode zeros 64) 128 else if b = 3 then blit zeros 0 1 (fun _ => 15) else zeros,
    blank.sb,fun s => if s = 0 then ⟨Dinode.zero,1,1,1,false⟩ else if s = 1 then ⟨hole,1,2,1,true⟩ else ⟨Dinode.zero,0,0,0,false⟩,
    zeros,[]⟩
  file := fun f => if f.val = 0 then ⟨.inode,1,true,false,1,0⟩ else ⟨.none,0,false,false,0,0⟩
  vm := ⟨fun _ _ => ⟨true,true,true,3⟩,fun _ => blit zeros 12 1 (fun _ => 1),[],[]⟩
  proc := ⟨4096,2,1,zeros,fun a => if a.val = 0 then some ⟨0,by decide⟩ else none,0,0,0⟩
  touched := []

theorem hollow_coherent : hollow.fs.Coherent rootdev := by
  intro s locked
  have here : s = 1 := by
    by_contra other
    obtain ⟨_,_,valid⟩ := locked
    by_cases first : s = 0
    · simp [hollow,first] at valid
    · simp [hollow,first,other] at valid
  subst here
  exact (Dinode.decode_encode _ _ _).symm

theorem hollow_inode (k : Nat) : (∀ i < 13, ((hollow.fs.volume rootdev).inode k).addr i = 0) ∧
    (((hollow.fs.volume rootdev).inode k).type = 0 ∨ ((hollow.fs.volume rootdev).inode k).size = 0) := by
  have all : ∀ k < 8, (∀ i < 13, (hollow.fs.table rootdev k).addr i = 0) ∧
      ((hollow.fs.table rootdev k).type = 0 ∨ (hollow.fs.table rootdev k).size = 0) := by decide
  by_cases inside : k < hollow.fs.sb.slots
  · rw [FsState.volume_inode inside,hollow_coherent.dinode]
    exact all k inside
  · rw [FsState.volume_rest (Nat.not_lt.mp inside)]
    exact ⟨fun i _ => Dinode.addr_zero i,Or.inl rfl⟩

theorem hollow_ref (p : Nat × Nat) : (hollow.fs.volume rootdev).ref p = 0 :=
  Volume.ref_absent (hollow_inode p.1).1 p.2

theorem hollow_sound : (hollow.fs.volume rootdev).Sound := by
  have marked : ∀ b < 4, (hollow.fs.disk 1 (hollow.fs.sb.bblock b) (b % bpb / 8)).getLsbD (b % 8) = true := by decide
  refine ⟨⟨by decide,by decide,by decide,by decide,by decide⟩,marked,?_,?_,?_⟩
  · exact fun p h => absurd (hollow_ref p) h
  · exact fun p h => absurd (hollow_ref p) h
  · exact fun p _ h => absurd (hollow_ref p) h

theorem hollow_table : Table hollow.file hollow.proc.ofile := by
  have named {a : Fin nofile} {f : FileId} (here : hollow.proc.ofile a = some f) : a.val = 0 ∧ f = ⟨0,by decide⟩ := by
    by_cases first : a.val = 0
    · rw [show hollow.proc.ofile a = some ⟨0,by decide⟩ from if_pos first] at here
      exact ⟨first,(Option.some.inj here).symm⟩
    · rw [show hollow.proc.ofile a = none from if_neg first] at here
      cases here
  refine ⟨fun a b f left right => Fin.ext ((named left).1.trans (named right).1.symm),fun a f here => ?_,fun f free => ?_⟩
  · rw [(named here).2]
    exact ⟨rfl,rfl⟩
  · have other : f.val ≠ 0 := fun zero => free ⟨0,by decide⟩ (congrArg some (Fin.ext zero).symm)
    rw [show hollow.file f = ⟨.none,0,false,false,0,0⟩ from if_neg other]
    exact ⟨rfl,rfl⟩

theorem hollow_counted : Counted hollow.handles hollow.fs := by
  have counts : ∀ s, (hollow.fs.icache s).ref = ((hollow.handles.map Prod.fst).count s : Int) := by decide
  have number (s : Slot) (used : 0 < (hollow.fs.icache s).ref) : (hollow.fs.icache s).inum = s.val + 1 := by
    revert s
    decide
  refine ⟨counts,fun s t used used' _ same => Fin.ext ?_⟩
  have left := number s used
  have right := number t used'
  omega

/-- Free inodes are not free of holes here: the read takes a block that the disk does not know of. -/
theorem cache_incoherent_hollow : ¬∀ (data : Nat) (k k' : State), Table k.file k.proc.ofile → Counted k.handles k.fs →
    (k.fs.volume rootdev).Sound →
    (∀ n, ((k.fs.volume rootdev).inode n).type = tFile ∨ ((k.fs.volume rootdev).inode n).type = tDir →
      (k.fs.volume rootdev).Filled n) →
    (∀ s, k.fs.Locked rootdev s → (k.fs.icache s).toDinode = k.fs.table rootdev (k.fs.icache s).inum) →
    Run data k k' → k'.fs.exhausted = false →
    ∀ s, k'.fs.Locked rootdev s → (k'.fs.icache s).toDinode = k'.fs.table rootdev (k'.fs.icache s).inum := by
  intro claim
  have filled (n : Nat) (type : ((hollow.fs.volume rootdev).inode n).type = tFile ∨
      ((hollow.fs.volume rootdev).inode n).type = tDir) : (hollow.fs.volume rootdev).Filled n := by
    rcases (hollow_inode n).2 with zero | empty
    · rw [zero] at type
      rcases type with file | dir
      · cases file
      · cases dir
    · intro bn below
      rw [empty] at below
      exact absurd below (Nat.not_lt_zero _)
  obtain ⟨r,k',read,enough,used,device,valid,apart⟩ : ∃ r k', sysRead hollow = .ok (r,k') ∧ k'.fs.exhausted = false ∧
      0 < (k'.fs.icache 1).ref ∧ (k'.fs.icache 1).dev = rootdev ∧ (k'.fs.icache 1).valid = true ∧
      (k'.fs.icache 1).toDinode.addrs 0 ≠ (k'.fs.table rootdev (k'.fs.icache 1).inum).addrs 0 := by
    refine ⟨_,_,rfl,?_⟩
    decide
  have law := claim 0 hollow k' hollow_table hollow_counted hollow_sound filled hollow_coherent
    (Relation.ReflTransGen.single (Step.call _ _ .read r read)) enough 1 ⟨used,device,valid⟩
  exact apart (by rw [law])

end Lxos.Kernel
