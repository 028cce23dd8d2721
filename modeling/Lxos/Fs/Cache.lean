import Lxos.Fs.Frame
import Lxos.Fs.Allocation

/-! The volume that a kernel state stands for. An inode in use is its cached
copy, any other is its dinode in the table. -/
namespace Lxos.Fs
open Lxos.Bytes
namespace FsState

/-- The slot is referenced and holds a loaded inode of the device. -/
def Locked (st : FsState) (dev : Nat) (s : Slot) : Prop :=
  0 < (st.icache s).ref ∧ (st.icache s).dev = dev ∧ (st.icache s).valid = true

/-- No inode is referenced through two slots. -/
def Unique (st : FsState) : Prop :=
  ∀ s t, 0 < (st.icache s).ref → 0 < (st.icache t).ref → (st.icache s).dev = (st.icache t).dev →
    (st.icache s).inum = (st.icache t).inum → s = t

def cached (st : FsState) (dev k : Nat) : Option Slot :=
  (List.finRange ninode).find? fun s =>
    0 < (st.icache s).ref && (st.icache s).dev == dev && (st.icache s).valid && (st.icache s).inum == k

/-- Dinode `k` on disk. -/
def table (st : FsState) (dev k : Nat) : Dinode :=
  Dinode.decode (st.disk dev (st.sb.iblock k)) (inodeOffset k)

def dinode (st : FsState) (dev k : Nat) : Dinode :=
  match st.cached dev k with
  | some s => (st.icache s).toDinode
  | none => st.table dev k

def volume (st : FsState) (dev : Nat) : Volume where
  sb := st.sb
  inode := fun k => if k < st.sb.slots then st.dinode dev k else Dinode.zero
  block := st.disk dev

section cache
variable {st st' : FsState} {dev : Nat} {s : Slot}

theorem cached_some {k : Nat} (found : st.cached dev k = some s) :
    st.Locked dev s ∧ (st.icache s).inum = k := by
  have test := List.find?_some found
  simp only [Bool.and_eq_true,beq_iff_eq,decide_eq_true_iff] at test
  exact ⟨⟨test.1.1.1,test.1.1.2,test.1.2⟩,test.2⟩

theorem cached_none {k : Nat} (absent : ∀ s, st.Locked dev s → (st.icache s).inum ≠ k) :
    st.cached dev k = none := by
  cases found : st.cached dev k with
  | none => rfl
  | some s => exact absurd (cached_some found).2 (absent s (cached_some found).1)

theorem cached_locked (unique : st.Unique) (locked : st.Locked dev s) :
    st.cached dev (st.icache s).inum = some s := by
  cases found : st.cached dev (st.icache s).inum with
  | none =>
    have test := List.find?_eq_none.mp found s (List.mem_finRange s)
    simp [locked.1,locked.2.1,locked.2.2] at test
  | some t =>
    obtain ⟨other,same⟩ := cached_some found
    rw [unique t s other.1 locked.1 (other.2.1.trans locked.2.1.symm) same]

theorem dinode_locked (unique : st.Unique) (locked : st.Locked dev s) :
    st.dinode dev (st.icache s).inum = (st.icache s).toDinode := by
  simp only [dinode,cached_locked unique locked]

theorem dinode_unlocked {k : Nat} (absent : ∀ s, st.Locked dev s → (st.icache s).inum ≠ k) :
    st.dinode dev k = st.table dev k := by
  simp only [dinode,cached_none absent]

theorem cached_congr (ref : ∀ s, (st'.icache s).ref = (st.icache s).ref)
    (dev' : ∀ s, (st'.icache s).dev = (st.icache s).dev)
    (inum : ∀ s, (st'.icache s).inum = (st.icache s).inum)
    (valid : ∀ s, (st'.icache s).valid = (st.icache s).valid) (k : Nat) :
    st'.cached dev k = st.cached dev k := by
  simp only [cached,ref,dev',inum,valid]

theorem volume_inode {k : Nat} (h : k < st.sb.slots) : (st.volume dev).inode k = st.dinode dev k :=
  if_pos h

theorem volume_locked (unique : st.Unique) (locked : st.Locked dev s)
    (h : (st.icache s).inum < st.sb.slots) :
    (st.volume dev).inode (st.icache s).inum = (st.icache s).toDinode :=
  (volume_inode h).trans (dinode_locked unique locked)

/-- Volumes are equal when superblock, inodes below `slots` and blocks are. -/
theorem volume_ext {v : Volume} (sb : v.sb = st.sb) (block : v.block = st.disk dev)
    (inode : ∀ k < st.sb.slots, v.inode k = st.dinode dev k)
    (rest : ∀ k, st.sb.slots ≤ k → v.inode k = Dinode.zero) : st.volume dev = v := by
  obtain ⟨vsb,vinode,vblock⟩ := v
  simp only at sb block
  subst sb block
  simp only [volume,Volume.mk.injEq,true_and,and_true]
  funext k
  by_cases h : k < st.sb.slots
  · rw [if_pos h]
    exact (inode k h).symm
  · rw [if_neg h]
    exact (rest k (by omega)).symm

theorem volume_rest {k : Nat} (h : st.sb.slots ≤ k) : (st.volume dev).inode k = Dinode.zero :=
  if_neg (by omega)

/-- Blocks outside the inode table do not hold dinodes. -/
theorem volume_blocks (layout : st.sb.Layout) (sb : st'.sb = st.sb) (icache : st'.icache = st.icache)
    (same : ∀ c < st.sb.bmapstart, st'.disk dev c = st.disk dev c) :
    st'.volume dev = { st.volume dev with block := st'.disk dev } := by
  refine volume_ext sb.symm rfl (fun k h => ?_) (fun k h => ?_)
  · rw [sb] at h
    have block := same _ (layout.iblock_range h).2
    rw [volume_inode h]
    simp only [dinode,cached,icache,table,sb,block]
  · rw [sb] at h
    exact volume_rest h

theorem volume_bwrite (layout : st.sb.Layout) {b : Nat} (away : st.sb.bmapstart ≤ b) (data : Block) :
    (bwrite st dev b data).volume dev = (st.volume dev).setBlock b data := by
  have same (c : Nat) (h : c < st.sb.bmapstart) : (bwrite st dev b data).disk dev c = st.disk dev c :=
    bwrite_other _ _ _ _ (Or.inr (by omega))
  rw [volume_blocks layout (by rfl) (by rfl) same,bwrite_disk]
  rfl

theorem dinode_setDinode (unique : st.Unique) (locked : st.Locked dev s) (d : Dinode) (k : Nat) :
    (st.setDinode s d).dinode dev k = if k = (st.icache s).inum then d else st.dinode dev k := by
  have change := setDinode_local st s d
  have cached : (st.setDinode s d).cached dev k = st.cached dev k :=
    cached_congr change.ref change.dev change.inum change.valid k
  simp only [dinode,cached]
  by_cases here : k = (st.icache s).inum
  · subst k
    simp only [cached_locked unique locked,setDinode_same,if_true]
  · rw [if_neg here]
    cases found : st.cached dev k with
    | none => rfl
    | some t =>
      have distinct : t ≠ s := by
        rintro rfl
        exact here (cached_some found).2.symm
      simp only [setDinode_other _ _ _ _ distinct]

theorem volume_setDinode (unique : st.Unique) (locked : st.Locked dev s)
    (h : (st.icache s).inum < st.sb.slots) (d : Dinode) :
    (st.setDinode s d).volume dev = (st.volume dev).setInode (st.icache s).inum d := by
  refine volume_ext rfl rfl (fun k bound => ?_) (fun k bound => ?_)
  · rw [dinode_setDinode unique locked]
    by_cases here : k = (st.icache s).inum
    · rw [if_pos here,here]
      exact Function.update_self _ _ _
    · rw [if_neg here]
      exact (Function.update_of_ne here _ _).trans (volume_inode bound)
  · have away : k ≠ (st.icache s).inum := by
      rintro rfl
      exact absurd h (by simpa using bound)
    exact (Function.update_of_ne away _ _).trans (volume_rest bound)

theorem table_other (layout : st.sb.Layout) (sb : st'.sb = st.sb) {k l : Nat} (hk : k < st.sb.slots)
    (hl : l < st.sb.slots) (distinct : k ≠ l) (d : Dinode)
    (write : st'.disk dev = Function.update (st.disk dev) (st.sb.iblock l)
      (d.encode (st.disk dev (st.sb.iblock l)) (inodeOffset l))) :
    st'.table dev k = st.table dev k := by
  unfold table
  rw [sb,write]
  by_cases block : st.sb.iblock k = st.sb.iblock l
  · rw [block,Function.update_self]
    refine Dinode.decode_encode_other d _ _ _ ?_
    exact layout.inode_disjoint hl hk (Ne.symm distinct) block.symm
  · rw [Function.update_of_ne block]

theorem cached_eq (unique : st.Unique) (locked : st.Locked dev s) {k : Nat} (h : (st.icache s).inum = k) :
    st.cached dev k = some s := h ▸ cached_locked unique locked

/-- The inodes of two states agree where the same slots are locked, up to slots
whose copy is the dinode on disk. -/
theorem dinode_congr (unique : st.Unique) (unique' : st'.Unique) {k : Nat}
    (table : st'.table dev k = st.table dev k)
    (kept : ∀ s, st.Locked dev s → (st.icache s).inum = k →
      (st'.Locked dev s ∧ (st'.icache s).inum = k ∧ (st'.icache s).toDinode = (st.icache s).toDinode) ∨
      ((∀ t, st'.Locked dev t → (st'.icache t).inum ≠ k) ∧ (st.icache s).toDinode = st.table dev k))
    (new : ∀ s, st'.Locked dev s → (st'.icache s).inum = k →
      (st.Locked dev s ∧ (st.icache s).inum = k) ∨ (st'.icache s).toDinode = st.table dev k) :
    st'.dinode dev k = st.dinode dev k := by
  cases before : st.cached dev k with
  | some s =>
    obtain ⟨locked,number⟩ := cached_some before
    simp only [dinode,before]
    rcases kept s locked number with ⟨locked',number',same⟩ | ⟨gone,same⟩
    · simp only [cached_eq unique' locked' number',same]
    · simp only [cached_none gone,table,same]
  | none =>
    simp only [dinode,before]
    cases after : st'.cached dev k with
    | none => exact table
    | some s =>
      obtain ⟨locked',number'⟩ := cached_some after
      rcases new s locked' number' with ⟨locked,number⟩ | same
      · rw [cached_eq unique locked number] at before
        exact absurd before (by simp)
      · exact same

end cache
end FsState

/-- Nothing but the trace changes, and no allocation failed. -/
structure Idle (st st' : FsState) : Prop where
  disk : st'.disk = st.disk
  sb : st'.sb = st.sb
  icache : st'.icache = st.icache
  stack : st'.stack = st.stack
  trace : st.trace <:+ st'.trace
  exhausted : st'.exhausted = st.exhausted
  inodes : st'.inodesExhausted = st.inodesExhausted

section idle
variable {st st' st'' : FsState} {dev : Nat}

theorem Idle.refl (st : FsState) : Idle st st := ⟨rfl,rfl,rfl,rfl,List.suffix_refl _,rfl,rfl⟩

theorem Idle.trans (first : Idle st st') (second : Idle st' st'') : Idle st st'' :=
  ⟨second.disk.trans first.disk,second.sb.trans first.sb,second.icache.trans first.icache,
    second.stack.trans first.stack,first.trace.trans second.trace,
    second.exhausted.trans first.exhausted,second.inodes.trans first.inodes⟩

theorem Idle.volume (idle : Idle st st') : st'.volume dev = st.volume dev := by
  obtain ⟨disk,sb,icache,stack,trace⟩ := st
  obtain ⟨disk',sb',icache',stack',trace'⟩ := st'
  obtain ⟨rfl,rfl,rfl,_,_,_,_⟩ := idle
  rfl

theorem bread_idle (st : FsState) (dev b : Nat) : Idle st (bread st dev b) :=
  ⟨rfl,rfl,rfl,rfl,List.suffix_cons _ _,rfl,rfl⟩

theorem brelse_idle (st : FsState) (dev b : Nat) : Idle st (brelse st dev b) :=
  ⟨rfl,rfl,rfl,rfl,List.suffix_cons _ _,rfl,rfl⟩

theorem kprint_idle (st : FsState) {m : Message} (h : m ≠ .ballocOut ∧ m ≠ .iallocOut) :
    Idle st (kprint st m) := by
  refine ⟨rfl,rfl,rfl,rfl,List.suffix_cons _ _,?_,?_⟩
  · simp [FsState.exhausted,Event.isPrint,h.1]
  · simp [FsState.inodesExhausted,Event.isPrint,h.2]

end idle

end Lxos.Fs
