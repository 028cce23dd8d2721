import Lxos.Fs.Coherent

/-! `itrunc` gives the blocks of an inode back. It clears their bits one by one, the
indirect block last, and stores the empty inode. No other inode is concerned. -/
namespace Lxos.Fs
open Lxos.Bytes Lxos.Ownership

namespace Volume

/-- What `bfree` does to the disk: bit `b` clear. -/
def release (v : Volume) (b : Nat) : Volume :=
  let bno := v.sb.bblock b
  let bi := b % bpb
  v.setBlock bno (blit (v.block bno) (bi / 8) 1 (fun _ => v.block bno (bi / 8) &&& ~~~bitMask bi))

theorem release_marked {v : Volume} {b : Nat} (layout : v.sb.Layout) (bound : b < v.sb.size) {c : Nat}
    (h : c < v.sb.size) : (v.release b).marked c ↔ v.marked c ∧ c ≠ b := by
  have small : c % 8 < 8 := Nat.mod_lt _ (by omega)
  by_cases place : v.sb.bblock c = v.sb.bblock b ∧ c % 4096 / 8 = b % 4096 / 8
  · have same : c % 8 = b % 8 ↔ c = b :=
      ⟨fun bit => layout.bit_injective h bound place.1 place.2 bit,congrArg (· % 8)⟩
    have position : b % 4096 % 8 = b % 8 := by omega
    have value : (v.release b).block (v.sb.bblock c) (c % 4096 / 8) =
        v.block (v.sb.bblock c) (c % 4096 / 8) &&& ~~~bitMask (b % 4096) := by
      rw [place.1,place.2]
      simp only [release,setBlock,Function.update_self]
      exact blit_inside (i := 0) (by omega)
    change (((v.release b).block (v.sb.bblock c) (c % 4096 / 8)).getLsbD (c % 8) = true) ↔ _
    rw [value,BitVec.getLsbD_and,BitVec.getLsbD_not,bitMask_bit _ small,Bool.and_eq_true]
    refine and_congr_right' ?_
    rw [position,ne_eq,← same]
    simp [small]
  · have distinct : c ≠ b := by
      rintro rfl
      exact place ⟨rfl,rfl⟩
    have value : (v.release b).block (v.sb.bblock c) (c % 4096 / 8) = v.block (v.sb.bblock c) (c % 4096 / 8) := by
      simp only [release,setBlock]
      by_cases block : v.sb.bblock c = v.sb.bblock b
      · rw [block,Function.update_self]
        exact blit_outside (by change _ < b % 4096 / 8 ∨ b % 4096 / 8 + 1 ≤ _; omega)
      · rw [Function.update_of_ne block]
    rw [marked_congr (v := v) (w := v.release b) rfl value]
    exact ⟨fun h => ⟨h,distinct⟩,And.left⟩

/-- Inode `k` may have given up all of its blocks; nothing else changed but the
inode table and the bitmap. -/
structure Shrunk (k : Nat) (v w : Volume) : Prop where
  sb : w.sb = v.sb
  other : ∀ j, j ≠ k → w.inode j = v.inode j
  addrs : (w.inode k).addrs = (v.inode k).addrs ∨ (w.inode k).addrs = fun _ => 0
  data : ∀ c, v.sb.nmeta ≤ c → w.block c = v.block c

section shrunk
variable {used : Nat → Prop} {k : Nat} {v w : Volume}

theorem refAt_none {d : Dinode} (none : d.addrs = fun _ => 0) (block : Nat → Block) (p : Nat) : d.refAt block p = 0 := by
  have addr (i : Nat) : d.addr i = 0 := by
    unfold Dinode.addr
    split
    · rw [none]
      rfl
    · rfl
  unfold Dinode.refAt
  simp only [addr,if_true,ite_self]

theorem Shrunk.foreign (shrunk : Shrunk k v w) (owned : Owned used v) (p : Nat × Nat) (away : p.1 ≠ k) :
    w.ref p = v.ref p := by
  unfold ref
  rw [shrunk.sb,shrunk.other _ away]
  split
  · rename_i place
    refine Dinode.refAt_congr rfl (fun present => ?_) _
    have there := ref_indirect v place
    exact shrunk.data _ (there ▸ (owned.range (p.1,140) (by rw [there]; exact present)).1)
  · rfl

theorem Shrunk.same (shrunk : Shrunk k v w) (owned : Owned used v) (same : (w.inode k).addrs = (v.inode k).addrs) (i : Nat) :
    w.ref (k,i) = v.ref (k,i) := by
  unfold ref
  rw [shrunk.sb]
  split
  · rename_i place
    refine Dinode.refAt_congr same.symm (fun present => ?_) _
    have there := ref_indirect v place
    exact shrunk.data _ (there ▸ (owned.range (k,140) (by rw [there]; exact present)).1)
  · rfl

theorem ref_none (none : (v.inode k).addrs = fun _ => 0) (i : Nat) : v.ref (k,i) = 0 := by
  unfold ref
  split
  · exact refAt_none none _ _
  · rfl

/-- Without addresses there are no blocks. -/
theorem ref_absent (absent : ∀ i < 13, (v.inode k).addr i = 0) (i : Nat) : v.ref (k,i) = 0 := by
  refine ref_none (funext fun j => BitVec.eq_of_toNat_eq ?_) i
  have same := absent j.val j.isLt
  unfold Dinode.addr at same
  rw [dif_pos j.isLt] at same
  exact same

/-- One inode with one address. -/
theorem ref_single {v : Volume} {k a : Nat} (place : k < v.sb.slots)
    (here : ∀ i < 13, (v.inode k).addr i = if i = 0 then a else 0) (none : ∀ j, j ≠ k → ∀ i < 13, (v.inode j).addr i = 0)
    (p : Nat × Nat) : v.ref p = if p = (k,0) then a else 0 := by
  obtain ⟨j,i⟩ := p
  rcases ne_or_eq j k with away | rfl
  · rw [if_neg fun same => away (congrArg Prod.fst same)]
    exact ref_absent (none j away) i
  · have last : (v.inode j).addr 12 = 0 := here 12 (by decide)
    have ref : v.ref (j,i) = (v.inode j).refAt v.block i := if_pos place
    rw [ref]
    unfold Dinode.refAt
    simp only [last,if_true,ite_self,Prod.mk.injEq,true_and]
    by_cases low : i < 12
    · rw [if_pos low]
      exact here i (by omega)
    · rw [if_neg low,if_neg (by omega)]

theorem Shrunk.own (shrunk : Shrunk k v w) (owned : Owned used v) (i : Nat) : w.ref (k,i) = v.ref (k,i) ∨ w.ref (k,i) = 0 :=
  shrunk.addrs.imp (fun same => shrunk.same owned same i) fun none => ref_none none i

theorem Shrunk.sub (shrunk : Shrunk k v w) (owned : Owned used v) (p : Nat × Nat) (some : w.ref p ≠ 0) :
    w.ref p = v.ref p := by
  by_cases here : p.1 = k
  · obtain ⟨j,i⟩ := p
    cases here
    exact (shrunk.own owned i).resolve_right some
  · exact shrunk.foreign owned p here

/-- What is left is owned as before. -/
theorem Shrunk.owned (shrunk : Shrunk k v w) (owned : Owned used v) {used' : Nat → Prop}
    (reserved : ∀ b < v.sb.nmeta, used' b) (held : ∀ p, w.ref p ≠ 0 → used' (v.ref p)) : Owned used' w := by
  have sub := shrunk.sub owned
  refine ⟨?_,?_,fun p some => ?_,fun p some => ?_,owned.exclusive.shrink sub⟩
  · rw [shrunk.sb]
    exact owned.layout
  · rw [shrunk.sb]
    exact reserved
  · have same := sub p some
    rw [same] at some ⊢
    rw [shrunk.sb]
    exact owned.range p some
  · have same := held p some
    rw [← sub p some] at same
    exact same

theorem Shrunk.byte (shrunk : Shrunk k v w) (owned : Owned used v) {j : Nat} (away : j ≠ k) : w.byte j = v.byte j := by
  funext o
  have width := owned.layout.width
  have room := owned.layout.room
  unfold Volume.byte Volume.addr
  rw [shrunk.foreign owned (j,o / 512) away]
  by_cases index : o / 512 < 140
  · simp only [index,if_true]
    by_cases absent : v.ref (j,o / 512) = 0
    · simp only [absent,if_true]
    · rw [if_neg absent,if_neg absent,shrunk.data _ (owned.range _ absent).1]
  · simp only [index,if_false]
    rw [shrunk.data _ (by omega)]

theorem Shrunk.filled (shrunk : Shrunk k v w) (owned : Owned used v) {j : Nat} (away : j ≠ k) (filled : v.Filled j) :
    w.Filled j := by
  intro bn inside
  rw [shrunk.other j away] at inside
  rw [shrunk.foreign owned (j,bn) away]
  exact filled bn inside

end shrunk

/-- The last reference to an inode without links was dropped. -/
structure Freed (k : Nat) (v w : Volume) : Prop where
  shrunk : Shrunk k v w
  inode : w.inode k = { v.inode k with type := 0,size := 0,addrs := fun _ => 0 }
  marks : ∀ c < v.sb.size, w.marked c ↔ v.marked c ∧ ¬∃ i, v.ref (k,i) = c ∧ c ≠ 0

theorem Freed.sound {k : Nat} {v w : Volume} (freed : Freed k v w) (sound : v.Sound) : w.Sound := by
  have room := sound.layout.room
  refine freed.shrunk.owned sound (fun b low => ?_) (fun p some => ?_)
  · refine (freed.marks b (by omega)).mpr ⟨sound.reserved b low,?_⟩
    rintro ⟨i,here,nonzero⟩
    have := (sound.range (k,i) (by rw [here]; exact nonzero)).1
    omega
  · have same := freed.shrunk.sub sound p some
    have there : v.ref p ≠ 0 := by
      rw [← same]
      exact some
    refine (freed.marks _ (sound.range p there).2).mpr ⟨sound.held p there,?_⟩
    rintro ⟨i,here,_⟩
    have owner := sound.exclusive (k,i) p (by rw [here]; exact there) here
    rw [← owner] at some
    exact some (ref_none (by rw [freed.inode]) i)

/-- The blocks of an inode: the direct ones, those in the indirect block, and this block. -/
theorem ref_any (v : Volume) {k c : Nat} (place : k < v.sb.slots) : (∃ i, v.ref (k,i) = c ∧ c ≠ 0) ↔
    (∃ i < 12, (v.inode k).addr i = c ∧ c ≠ 0) ∨ (v.inode k).addr 12 ≠ 0 ∧
      ((∃ j < 128, (le32 (v.block ((v.inode k).addr 12)) (4 * j)).toNat = c ∧ c ≠ 0) ∨ c = (v.inode k).addr 12) := by
  have indirect := ref_indirect v place
  constructor
  · rintro ⟨i,rfl,some⟩
    have last := (ref_position some).2
    rcases Nat.lt_or_ge i 12 with direct | high
    · exact Or.inl ⟨i,direct,(ref_direct v place direct).symm,some⟩
    · refine Or.inr ?_
      rcases Nat.lt_or_ge i 140 with entry | top
      · obtain ⟨j,rfl⟩ := Nat.exists_eq_add_of_le high
        have there : v.ref (k,140) ≠ 0 := fun absent => some (ref_entry_absent v (by omega) absent)
        have value := ref_entry v place (j := j) (by omega) there
        rw [indirect] at there value
        exact ⟨there,Or.inl ⟨j,by omega,value.symm,some⟩⟩
      · obtain rfl : i = 140 := by omega
        rw [indirect] at some ⊢
        exact ⟨some,Or.inr rfl⟩
  · rintro (⟨i,direct,rfl,some⟩ | ⟨there,⟨j,entry,rfl,some⟩ | rfl⟩)
    · exact ⟨i,ref_direct v place direct,some⟩
    · refine ⟨12 + j,?_,some⟩
      rw [ref_entry v place entry (by rw [indirect]; exact there),indirect]
    · exact ⟨140,indirect,there⟩

end Volume

/-- Bits of the bitmap were cleared, those of the blocks in `gone`. -/
structure Cleared (dev : Nat) (gone : Nat → Prop) (st st' : FsState) : Prop where
  sb : st'.sb = st.sb
  outside : ∀ c, c < st.sb.bmapstart ∨ st.sb.nmeta ≤ c → st'.disk dev c = st.disk dev c
  marks : ∀ c < st.sb.size, (st'.volume dev).marked c ↔ (st.volume dev).marked c ∧ ¬gone c

/-- The superblock in memory is the one on the disk. -/
def FsState.Super (st : FsState) (dev : Nat) : Prop := Superblock.decode (st.disk dev 1) = st.sb

section cleared
variable {dev b n : Nat} {gone gone' : Nat → Prop} {ip : Slot} {st st' st'' : FsState}

theorem Cleared.none (st : FsState) (empty : ∀ c, ¬gone c) : Cleared dev gone st st :=
  ⟨rfl,fun _ _ => rfl,fun c _ => ⟨fun h => ⟨h,empty c⟩,And.left⟩⟩

theorem Cleared.trans {all : Nat → Prop} (first : Cleared dev gone st st') (second : Cleared dev gone' st' st'')
    (union : ∀ c, all c ↔ gone c ∨ gone' c) : Cleared dev all st st'' where
  sb := second.sb.trans first.sb
  outside := fun c h => (second.outside c (by rw [first.sb]; exact h)).trans (first.outside c h)
  marks := fun c h => by
    rw [second.marks c (by rw [first.sb]; exact h),first.marks c h,union,not_or,and_assoc]

/-- Only the superblock in memory and the blocks of the device matter. -/
theorem Cleared.congr {st1 st1' : FsState} (cleared : Cleared dev gone st st') (sb : st1.sb = st.sb)
    (disk : st1.disk dev = st.disk dev) (sb' : st1'.sb = st'.sb) (disk' : st1'.disk dev = st'.disk dev) :
    Cleared dev gone st1 st1' where
  sb := by rw [sb',sb,cleared.sb]
  outside := fun c h => by
    rw [disk',disk]
    rw [sb] at h
    exact cleared.outside c h
  marks := fun c h => by
    rw [sb] at h
    have marks := cleared.marks c h
    unfold Volume.marked at marks ⊢
    change ((st1'.disk dev (st1'.sb.bblock c) _).getLsbD _ = true) ↔ ((st1.disk dev (st1.sb.bblock c) _).getLsbD _ = true) ∧ _
    rw [sb',disk',sb,disk]
    exact marks

theorem Cleared.super (cleared : Cleared dev gone st st') (layout : st.sb.Layout) (super : st.Super dev) :
    st'.Super dev := by
  have := layout.super
  have := layout.table
  unfold FsState.Super
  rw [cleared.sb,cleared.outside 1 (by omega)]
  exact super

theorem bfree_disk (super : st.Super dev) (b : Nat) : (bfree st dev b).sb = st.sb ∧
    (bfree st dev b).disk dev = ((st.volume dev).release b).block := by
  have read : (readsb st dev).sb = st.sb := super
  have written (st' : FsState) (sb : st'.sb = st.sb) (disk : st'.disk = st.disk) :
      (bwrite st' dev (st.sb.bblock b) (blit (st'.disk dev (st.sb.bblock b)) (b % bpb / 8) 1
        (fun _ => st'.disk dev (st.sb.bblock b) (b % bpb / 8) &&& ~~~bitMask (b % bpb)))).disk dev =
      ((st.volume dev).release b).block := by
    rw [bwrite_disk,disk]
    rfl
  unfold bfree
  dsimp only
  rw [read]
  split
  · exact ⟨super,written _ super rfl⟩
  · exact ⟨super,written _ super rfl⟩

theorem bfree_cleared (super : st.Super dev) (layout : st.sb.Layout) (bound : b < st.sb.size) :
    Cleared dev (fun c => c = b) st (bfree st dev b) := by
  obtain ⟨sb,disk⟩ := bfree_disk super b
  refine ⟨sb,fun c away => ?_,fun c h => ?_⟩
  · have range := layout.bblock_range bound
    rw [disk]
    refine Function.update_of_ne (fun same => ?_) _ _
    have same : c = st.sb.bblock b := same
    omega
  · have marks := Volume.release_marked (v := st.volume dev) layout bound h
    unfold Volume.marked at marks ⊢
    change (((bfree st dev b).disk dev ((bfree st dev b).sb.bblock c) _).getLsbD _ = true) ↔ _
    rw [sb,disk]
    exact marks

/-- The first `n` addresses are dropped. -/
def Dinode.drop (d : Dinode) (n : Nat) : Dinode :=
  { d with addrs := fun j => if j.val < n then 0 else d.addrs j }

theorem Dinode.addr_drop (d : Dinode) (n i : Nat) : (d.drop n).addr i = if i < n then 0 else d.addr i := by
  by_cases bound : i < 13
  · by_cases low : i < n
    · simp [Dinode.addr,Dinode.drop,bound,low]
    · simp [Dinode.addr,Dinode.drop,bound,low]
  · simp [Dinode.addr,bound]

theorem Dinode.drop_setAddr (d : Dinode) (n : Nat) : (d.drop n).setAddr n 0 = d.drop (n + 1) := by
  unfold Dinode.drop Dinode.setAddr
  congr 1
  funext j
  dsimp only
  by_cases here : j.val = n
  · rw [if_pos here,if_pos (by omega)]
    rfl
  · rw [if_neg here]
    by_cases low : j.val < n
    · rw [if_pos low,if_pos (by omega)]
    · rw [if_neg low,if_neg (by omega)]

theorem Dinode.drop_absent {d : Dinode} {n : Nat} (bound : n < 13) (absent : d.addr n = 0) : d.drop n = d.drop (n + 1) := by
  have zero : d.addrs ⟨n,bound⟩ = 0 := by
    simp only [Dinode.addr,bound,dif_pos] at absent
    exact BitVec.eq_of_toNat_eq absent
  unfold Dinode.drop
  congr 1
  funext j
  by_cases here : j.val = n
  · have same : j = ⟨n,bound⟩ := Fin.ext here
    rw [if_neg (by omega),if_pos (by omega),same,zero]
  · by_cases low : j.val < n
    · rw [if_pos low,if_pos (by omega)]
    · rw [if_neg low,if_neg (by omega)]

theorem exists_below (f : Nat → Nat) {n : Nat} (there : f n ≠ 0) (c : Nat) :
    (∃ i < n + 1, f i = c ∧ c ≠ 0) ↔ (∃ i < n, f i = c ∧ c ≠ 0) ∨ c = f n := by
  constructor
  · rintro ⟨i,low,rfl,some⟩
    rcases Nat.lt_succ_iff_lt_or_eq.mp low with low | rfl
    · exact Or.inl ⟨i,low,rfl,some⟩
    · exact Or.inr rfl
  · rintro (⟨i,low,same⟩ | rfl)
    · exact ⟨i,by omega,same⟩
    · exact ⟨n,by omega,rfl,there⟩

theorem itruncDirect_spec (super : st.Super dev) (layout : st.sb.Layout) (device : (st.icache ip).dev = dev)
    (range : ∀ i < 12, (st.icache ip).addr i ≠ 0 → (st.icache ip).addr i < st.sb.size) (few : n ≤ 12) :
    Cleared dev (fun c => ∃ i < n, (st.icache ip).addr i = c ∧ c ≠ 0) st (itruncDirect ip n st) ∧
      (itruncDirect ip n st).icache = (st.setDinode ip ((st.icache ip).toDinode.drop n)).icache := by
  induction n with
  | zero =>
    refine ⟨Cleared.none st fun c h => ?_,?_⟩
    · obtain ⟨i,low,_⟩ := h
      exact Nat.not_lt_zero i low
    · funext s
      have same : (st.icache ip).toDinode.drop 0 = (st.icache ip).toDinode := by simp [Dinode.drop]
      rw [same]
      by_cases here : s = ip
      · rw [here,FsState.setDinode_same]
        rfl
      · rw [FsState.setDinode_other _ _ _ _ here]
        rfl
  | succ n ih =>
    obtain ⟨cleared,icache⟩ := ih (by omega)
    have copy : ((itruncDirect ip n st).icache ip) = { st.icache ip with toDinode := (st.icache ip).toDinode.drop n } := by
      rw [icache,FsState.setDinode_same]
    have address : ((itruncDirect ip n st).icache ip).addr n = (st.icache ip).addr n := by
      rw [copy]
      exact (Dinode.addr_drop _ n n).trans (if_neg (lt_irrefl n))
    unfold itruncDirect
    dsimp only
    rw [address]
    split
    · rename_i absent
      refine ⟨cleared.trans (Cleared.none _ (fun _ => id)) fun c => ?_,?_⟩
      · rw [or_false]
        refine exists_congr fun i => ⟨fun h => ⟨?_,h.2⟩,fun h => ⟨by omega,h.2⟩⟩
        rcases Nat.lt_succ_iff_lt_or_eq.mp h.1 with low | rfl
        · exact low
        · exact absurd (absent ▸ h.2.1).symm h.2.2
      · rw [icache,Dinode.drop_absent (by omega) absent]
    · rename_i there
      have freed := bfree_cleared (cleared.super layout super) (cleared.sb ▸ layout)
        (by rw [cleared.sb]; exact range n (by omega) there)
      have still := (bfree_io (itruncDirect ip n st) dev ((st.icache ip).addr n)).icache
      have own : ((itruncDirect ip n st).icache ip).dev = dev := by
        rw [copy]
        exact device
      rw [own]
      refine ⟨?_,?_⟩
      · have joined : Cleared dev (fun c => ∃ i < n + 1, (st.icache ip).addr i = c ∧ c ≠ 0) st
            (bfree (itruncDirect ip n st) dev ((st.icache ip).addr n)) := by
          refine cleared.trans freed fun c => ?_
          exact (exists_below (fun i => (st.icache ip).addr i) there c)
        exact joined.congr rfl rfl rfl rfl
      · funext s
        unfold FsState.setAddr
        rw [still,copy]
        change ((bfree _ _ _).setDinode ip (((st.icache ip).toDinode.drop n).setAddr n 0)).icache s = _
        rw [Dinode.drop_setAddr]
        by_cases here : s = ip
        · rw [here,FsState.setDinode_same,FsState.setDinode_same,still,copy]
        · rw [FsState.setDinode_other _ _ _ _ here,FsState.setDinode_other _ _ _ _ here,still,icache,
            FsState.setDinode_other _ _ _ _ here]

/-- The blocks in the indirect block `a` are freed. -/
theorem itruncEntries_spec {a : Nat} (super : st.Super dev) (layout : st.sb.Layout) (high : st.sb.nmeta ≤ a)
    (range : ∀ j < 128, (le32 (st.disk dev a) (4 * j)).toNat ≠ 0 → (le32 (st.disk dev a) (4 * j)).toNat < st.sb.size)
    (few : n ≤ 128) :
    Cleared dev (fun c => ∃ j < n, (le32 (st.disk dev a) (4 * j)).toNat = c ∧ c ≠ 0) st (itruncEntries dev a n st) := by
  induction n with
  | zero =>
    refine Cleared.none st fun c h => ?_
    obtain ⟨j,low,_⟩ := h
    exact Nat.not_lt_zero j low
  | succ n ih =>
    have cleared := ih (by omega)
    have same := cleared.outside a (Or.inr high)
    unfold itruncEntries
    dsimp only
    rw [same]
    split
    · rename_i absent
      refine cleared.trans (Cleared.none _ (fun _ => id)) fun c => ?_
      rw [or_false]
      refine exists_congr fun j => ⟨fun h => ⟨?_,h.2⟩,fun h => ⟨by omega,h.2⟩⟩
      rcases Nat.lt_succ_iff_lt_or_eq.mp h.1 with low | rfl
      · exact low
      · exact absurd (absent ▸ h.2.1).symm h.2.2
    · rename_i there
      exact cleared.trans (bfree_cleared (cleared.super layout super) (cleared.sb ▸ layout)
        (by rw [cleared.sb]; exact range n (by omega) there)) (exists_below _ there)

end cleared

/-- Nothing but dinode `k` may have changed on the disk. -/
structure Recorded (dev k : Nat) (st st' : FsState) : Prop where
  sb : st'.sb = st.sb
  block : ∀ c, c ≠ st.sb.iblock k → st'.disk dev c = st.disk dev c
  byte : ∀ o, o < inodeOffset k ∨ inodeOffset k + 64 ≤ o → st'.disk dev (st.sb.iblock k) o = st.disk dev (st.sb.iblock k) o

section recorded
variable {dev k : Nat} {ip : Slot} {st st' st'' : FsState}

theorem Recorded.refl (st : FsState) : Recorded dev k st st := ⟨rfl,fun _ _ => rfl,fun _ _ => rfl⟩

theorem Recorded.trans (first : Recorded dev k st st') (second : Recorded dev k st' st'') : Recorded dev k st st'' where
  sb := second.sb.trans first.sb
  block := fun c h => (second.block c (by rw [first.sb]; exact h)).trans (first.block c h)
  byte := fun o h => by
    have later := second.byte o h
    rw [first.sb] at later
    exact later.trans (first.byte o h)

/-- A disk that stays, whatever the cache does. -/
theorem Recorded.same (sb : st'.sb = st.sb) (disk : st'.disk dev = st.disk dev) : Recorded dev k st st' :=
  ⟨sb,fun _ _ => by rw [disk],fun _ _ => by rw [disk]⟩

theorem Recorded.table (recorded : Recorded dev k st st') (layout : st.sb.Layout) (place : k < st.sb.slots) {j : Nat}
    (inside : j < st.sb.slots) (away : j ≠ k) : st'.table dev j = st.table dev j := by
  unfold FsState.table
  rw [recorded.sb]
  by_cases block : st.sb.iblock j = st.sb.iblock k
  · refine Dinode.decode_congr fun i small => ?_
    rw [block]
    refine recorded.byte _ ?_
    have apart := layout.inode_disjoint place inside away.symm block.symm
    change j % 8 * 64 + i < k % 8 * 64 ∨ k % 8 * 64 + 64 ≤ j % 8 * 64 + i
    omega
  · rw [recorded.block _ block]

theorem Recorded.marked (recorded : Recorded dev k st st') (layout : st.sb.Layout) (place : k < st.sb.slots) {c : Nat}
    (bound : c < st.sb.size) : (st'.volume dev).marked c ↔ (st.volume dev).marked c := by
  have range := layout.bblock_range bound
  have apart := layout.iblock_range place
  unfold Volume.marked
  change ((st'.disk dev (st'.sb.bblock c) _).getLsbD _ = true) ↔ ((st.disk dev (st.sb.bblock c) _).getLsbD _ = true)
  rw [recorded.sb,recorded.block _ (by omega)]

theorem Recorded.super (recorded : Recorded dev k st st') (layout : st.sb.Layout) (place : k < st.sb.slots)
    (super : st.Super dev) : st'.Super dev := by
  have := layout.iblock_range place
  have := layout.super
  unfold FsState.Super
  rw [recorded.sb,recorded.block 1 (by omega)]
  exact super

theorem Recorded.data (recorded : Recorded dev k st st') (layout : st.sb.Layout) (place : k < st.sb.slots) {c : Nat}
    (high : st.sb.bmapstart ≤ c) : st'.disk dev c = st.disk dev c := by
  have := layout.iblock_range place
  exact recorded.block c (by omega)

theorem iupdate_recorded (device : (st.icache ip).dev = dev) (number : (st.icache ip).inum = k) :
    Recorded dev k st (iupdate st ip) := by
  have disk : (iupdate st ip).disk dev = Function.update (st.disk dev) (st.sb.iblock k)
      ((st.icache ip).encode (st.disk dev (st.sb.iblock k)) (inodeOffset k)) := by
    simp only [iupdate,device,number]
    exact bwrite_disk _ _ _ _
  refine ⟨rfl,fun c away => ?_,fun o away => ?_⟩
  · rw [disk,Function.update_of_ne away]
  · rw [disk,Function.update_self]
    exact Dinode.encode_outside _ _ _ _ away

theorem iupdate_stored (device : (st.icache ip).dev = dev) :
    (iupdate st ip).table dev (st.icache ip).inum = (st.icache ip).toDinode := by
  simp only [FsState.table,iupdate,device,brelse_disk,brelse_sb,bread_disk,bwrite_sb,bread_sb,bwrite_same]
  exact Dinode.decode_encode _ _ _

theorem store_recorded (device : (st.icache ip).dev = dev) (number : (st.icache ip).inum = k) (d : Dinode) :
    Recorded dev k st (iupdate (st.setDinode ip d) ip) := by
  have set : Recorded dev k st (st.setDinode ip d) := Recorded.same rfl rfl
  refine set.trans (iupdate_recorded ?_ ?_)
  · rw [FsState.setDinode_same]
    exact device
  · rw [FsState.setDinode_same]
    exact number

end recorded

section free
variable {dev : Nat} {ip : Slot} {st : FsState}

/-- The blocks of the inode in slot `ip`. -/
def Owns (st : FsState) (dev : Nat) (ip : Slot) (c : Nat) : Prop :=
  ∃ i, (st.volume dev).ref ((st.icache ip).inum,i) = c ∧ c ≠ 0

/-- `itrunc` up to the change of the size. -/
theorem itrunc_spec (ready : Ready dev ip st) (super : st.Super dev) : ∃ st2,
    itrunc st ip = iupdate (st2.setDinode ip { (st2.icache ip).toDinode with size := 0 }) ip ∧
      Cleared dev (Owns st dev ip) st st2 ∧ st2.icache = (st.setDinode ip ((st.icache ip).toDinode.drop 13)).icache := by
  have copy := FsState.volume_locked ready.unique ready.locked ready.place
  have sound := ready.sound
  have layout : st.sb.Layout := sound.layout
  have owns (c : Nat) := Volume.ref_any (st.volume dev) (c := c) ready.place
  rw [copy] at owns
  have bound (c : Nat) (h : Owns st dev ip c) : st.sb.nmeta ≤ c ∧ c < st.sb.size := by
    obtain ⟨i,rfl,some⟩ := h
    exact sound.range _ some
  have direct := @itruncDirect_spec dev 12 ip (st.emit (.itrunc (st.icache ip).dev (st.icache ip).inum)) super layout
    ready.locked.2.1 (fun i low some => (bound _ ((owns _).mpr (Or.inl ⟨i,low,rfl,some⟩))).2) (le_refl _)
  obtain ⟨cleared,icache⟩ := direct
  unfold itrunc
  dsimp only [ndirect,nindirect]
  generalize itruncDirect ip 12 (st.emit (.itrunc (st.icache ip).dev (st.icache ip).inum)) = st1 at cleared icache ⊢
  have cleared : Cleared dev (fun c => ∃ i < 12, (st.icache ip).addr i = c ∧ c ≠ 0) st st1 := cleared.congr rfl rfl rfl rfl
  change st1.icache = (st.setDinode ip ((st.icache ip).toDinode.drop 12)).icache at icache
  have slot : st1.icache ip = { st.icache ip with toDinode := (st.icache ip).toDinode.drop 12 } := by
    rw [icache,FsState.setDinode_same]
  have address : (st1.icache ip).addr 12 = (st.icache ip).addr 12 := by
    rw [slot]
    exact (Dinode.addr_drop _ 12 12).trans (if_neg (lt_irrefl 12))
  have device : (st1.icache ip).dev = dev := by
    rw [slot]
    exact ready.locked.2.1
  rw [address,device]
  split
  · rename_i absent
    refine ⟨st1,rfl,cleared.trans (Cleared.none _ (fun _ => id)) fun c => ?_,?_⟩
    · refine (owns c).trans ?_
      simp only [absent,ne_eq,not_true_eq_false,false_and]
    · rw [icache,Dinode.drop_absent (by omega) absent]
  · rename_i there
    generalize ha : (st.icache ip).addr 12 = a at there owns ⊢
    have range (c : Nat) (h : (∃ j < 128, (le32 (st.disk dev a) (4 * j)).toNat = c ∧ c ≠ 0) ∨ c = a) :=
      bound c ((owns c).mpr (Or.inr ⟨there,h⟩))
    have high := (range _ (Or.inr rfl)).1
    have same := cleared.outside _ (Or.inr high)
    have entries := @itruncEntries_spec dev 128 (bread st1 dev a) a (cleared.super layout super) (cleared.sb ▸ layout)
      (by rw [bread_sb,cleared.sb]; exact high) (fun j low some => by
        rw [bread_disk,same] at some ⊢
        rw [bread_sb,cleared.sb]
        exact (range _ (Or.inl ⟨j,low,rfl,some⟩)).2) (le_refl _)
    rw [bread_disk,same] at entries
    have still := (itruncEntries_io dev a 128 (bread st1 dev a)).icache
    generalize itruncEntries dev a 128 (bread st1 dev a) = st2 at entries still ⊢
    have both : Cleared dev (fun c => (∃ i < 12, (st.icache ip).addr i = c ∧ c ≠ 0) ∨
        ∃ j < 128, (le32 (st.disk dev a) (4 * j)).toNat = c ∧ c ≠ 0) st st2 :=
      cleared.trans (entries.congr rfl rfl rfl rfl) fun _ => Iff.rfl
    have last := @bfree_cleared dev a (brelse st2 dev a) (both.super layout super) (both.sb ▸ layout)
      (by rw [brelse_sb,both.sb]; exact (range _ (Or.inr rfl)).2)
    have kept := (bfree_io (brelse st2 dev a) dev a).icache
    generalize bfree (brelse st2 dev a) dev a = st3 at last kept ⊢
    rw [brelse_icache,still,bread_icache] at kept
    refine ⟨st3.setAddr ip 12 0,rfl,both.trans (last.congr rfl rfl rfl rfl) fun c => ?_,?_⟩
    · refine (owns c).trans ?_
      simp only [there,ne_eq,not_false_iff,true_and,or_assoc]
      exact Iff.rfl
    · funext s
      unfold FsState.setAddr
      by_cases here : s = ip
      · rw [here,FsState.setDinode_same,FsState.setDinode_same,kept,slot,Dinode.drop_setAddr]
      · rw [FsState.setDinode_other _ _ _ _ here,FsState.setDinode_other _ _ _ _ here,kept,icache,
          FsState.setDinode_other _ _ _ _ here]

/-- The empty dinode that `iput` leaves. -/
def Dinode.emptied (d : Dinode) : Dinode := { d with type := 0,size := 0,addrs := fun _ => 0 }

/-- The inode in slot `ip` was freed, and its slot is free. -/
structure Gone (dev : Nat) (ip : Slot) (st st' : FsState) : Prop where
  sb : st'.sb = st.sb
  super : st'.Super dev
  other : ∀ s, s ≠ ip → st'.icache s = st.icache s
  self : st'.icache ip = { st.icache ip with toDinode := (st.icache ip).emptied,valid := false,ref := (st.icache ip).ref - 1 }
  table : ∀ j < st.sb.slots, j ≠ (st.icache ip).inum → st'.table dev j = st.table dev j
  stored : st'.table dev (st.icache ip).inum = (st.icache ip).emptied
  data : ∀ c, st.sb.nmeta ≤ c → st'.disk dev c = st.disk dev c
  marks : ∀ c < st.sb.size, (st'.volume dev).marked c ↔ (st.volume dev).marked c ∧ ¬Owns st dev ip c

theorem iput_gone (ready : Ready dev ip st) (super : st.Super dev) (linkless : (st.icache ip).nlink = 0)
    (last : (st.icache ip).ref = 1) : Gone dev ip st (iput st ip) := by
  have layout : st.sb.Layout := ready.sound.layout
  obtain ⟨st2,eq,cleared,icache⟩ := itrunc_spec ready super
  have slot : st2.icache ip = { st.icache ip with toDinode := (st.icache ip).toDinode.drop 13 } := by
    rw [icache,FsState.setDinode_same]
  have others (s : Slot) (h : s ≠ ip) : st2.icache s = st.icache s := by
    rw [icache,FsState.setDinode_other _ _ _ _ h]
  unfold iput
  dsimp only
  rw [if_pos ⟨ready.locked.2.2,linkless,last⟩,eq,slot]
  have whole : (st.icache ip).toDinode.drop 13 = { (st.icache ip).toDinode with addrs := fun _ => 0 } := by
    unfold Dinode.drop
    congr 1
    funext j
    exact if_pos j.isLt
  -- the size goes, then the type; each time the dinode is stored
  have first : Recorded dev (st.icache ip).inum st2
      (iupdate (st2.setDinode ip { (st.icache ip).toDinode.drop 13 with size := 0 }) ip) :=
    store_recorded (by rw [slot]; exact ready.locked.2.1) (by rw [slot]) _
  have middle : (iupdate (st2.setDinode ip { (st.icache ip).toDinode.drop 13 with size := 0 }) ip).icache =
      (st2.setDinode ip { (st.icache ip).toDinode.drop 13 with size := 0 }).icache := (iupdate_io _ _).icache
  generalize iupdate (st2.setDinode ip { (st.icache ip).toDinode.drop 13 with size := 0 }) ip = st3 at first middle ⊢
  have slot3 : st3.icache ip = { st.icache ip with toDinode := { (st.icache ip).toDinode with addrs := fun _ => 0,size := 0 } } := by
    rw [middle,FsState.setDinode_same,slot,whole]
  have others3 (s : Slot) (h : s ≠ ip) : st3.icache s = st.icache s := by
    rw [middle,FsState.setDinode_other _ _ _ _ h,others s h]
  have empty : ({ (st3.icache ip).toDinode with type := 0 } : Dinode) = (st.icache ip).emptied := by
    rw [slot3]
    rfl
  rw [empty]
  have slot4 : (st3.setDinode ip (st.icache ip).emptied).icache ip = { st.icache ip with toDinode := (st.icache ip).emptied } := by
    rw [FsState.setDinode_same,slot3]
  have second : Recorded dev (st.icache ip).inum st3 (iupdate (st3.setDinode ip (st.icache ip).emptied) ip) :=
    store_recorded (by rw [slot3]; exact ready.locked.2.1) (by rw [slot3]) _
  have saved : (iupdate (st3.setDinode ip (st.icache ip).emptied) ip).table dev (st.icache ip).inum = (st.icache ip).emptied := by
    have stored := @iupdate_stored dev ip (st3.setDinode ip (st.icache ip).emptied) (by rw [slot4]; exact ready.locked.2.1)
    rw [slot4] at stored
    exact stored
  have cache : (iupdate (st3.setDinode ip (st.icache ip).emptied) ip).icache = (st3.setDinode ip (st.icache ip).emptied).icache :=
    (iupdate_io _ _).icache
  generalize iupdate (st3.setDinode ip (st.icache ip).emptied) ip = st4 at second saved cache ⊢
  have all := first.trans second
  have place : (st.icache ip).inum < st2.sb.slots := by
    rw [cleared.sb]
    exact ready.place
  have layout2 : st2.sb.Layout := cleared.sb ▸ layout
  have same (j : Nat) (inside : j < st.sb.slots) : st2.table dev j = st.table dev j := by
    unfold FsState.table
    rw [cleared.sb,cleared.outside _ (Or.inl (layout.iblock_range inside).2)]
  refine ⟨all.sb.trans cleared.sb,all.super layout2 place (cleared.super layout super),?_,?_,?_,saved,?_,?_⟩
  · intro s h
    rw [FsState.setInode_other _ _ _ _ h,FsState.setInode_other _ _ _ _ h,cache,FsState.setDinode_other _ _ _ _ h,others3 s h]
  · rw [FsState.setInode_same,FsState.setInode_same,cache,slot4]
  · intro j inside away
    have kept := all.table layout2 place (by rw [cleared.sb]; exact inside) away
    exact kept.trans (same j inside)
  · intro c high
    have kept := all.data layout2 place (c := c) (by
      rw [cleared.sb]
      exact Nat.le_trans (Nat.le_add_right _ _) high)
    exact kept.trans (cleared.outside c (Or.inr high))
  · intro c bound
    have kept := all.marked layout2 place (c := c) (by rw [cleared.sb]; exact bound)
    exact kept.trans (cleared.marks c bound)

theorem Gone.unlocked {st' : FsState} (gone : Gone dev ip st st') (unique : st.Unique) (ready : Ready dev ip st) {s : Slot}
    (locked : st'.Locked dev s) : s ≠ ip ∧ st.Locked dev s ∧ (st.icache s).inum ≠ (st.icache ip).inum := by
  have away : s ≠ ip := by
    rintro rfl
    have valid := locked.2.2
    rw [gone.self] at valid
    cases valid
  unfold FsState.Locked at locked
  rw [gone.other s away] at locked
  refine ⟨away,locked,fun same => away ?_⟩
  exact unique s ip locked.1 ready.locked.1 (locked.2.1.trans ready.locked.2.1.symm) same

theorem Gone.unique {st' : FsState} (gone : Gone dev ip st st') (ready : Ready dev ip st) : st'.Unique := by
  have field (s : Slot) : 0 < (st'.icache s).ref → 0 < (st.icache s).ref ∧ (st'.icache s).dev = (st.icache s).dev ∧
      (st'.icache s).inum = (st.icache s).inum := by
    by_cases here : s = ip
    · intro _
      rw [here,gone.self]
      exact ⟨ready.locked.1,rfl,rfl⟩
    · rw [gone.other s here]
      exact fun h => ⟨h,rfl,rfl⟩
  intro s t hs ht
  obtain ⟨ps,ds,ns⟩ := field s hs
  obtain ⟨pt,dt,nt⟩ := field t ht
  rw [ds,ns,dt,nt]
  exact ready.unique s t ps pt

/-- Freeing an inode, seen on the volume. -/
theorem Gone.freed {st' : FsState} (gone : Gone dev ip st st') (ready : Ready dev ip st) :
    Volume.Freed (st.icache ip).inum (st.volume dev) (st'.volume dev) := by
  have copy := FsState.volume_locked ready.unique ready.locked ready.place
  have inode : (st'.volume dev).inode (st.icache ip).inum = (st.icache ip).emptied := by
    rw [FsState.volume_inode (by rw [gone.sb]; exact ready.place),FsState.dinode_unlocked,gone.stored]
    exact fun s locked => (gone.unlocked ready.unique ready locked).2.2 ∘ fun same => by
      rw [← same,gone.other s (gone.unlocked ready.unique ready locked).1]
  refine ⟨⟨gone.sb,fun j away => ?_,Or.inr ?_,gone.data⟩,?_,gone.marks⟩
  · by_cases inside : j < st.sb.slots
    · rw [FsState.volume_inode inside,FsState.volume_inode (by rw [gone.sb]; exact inside)]
      refine FsState.dinode_congr ready.unique (gone.unique ready) (gone.table j inside away) ?_ ?_
      · intro s locked number
        have apart : s ≠ ip := by
          rintro rfl
          exact away number.symm
        refine Or.inl ?_
        unfold FsState.Locked
        rw [gone.other s apart]
        exact ⟨locked,number,rfl⟩
      · intro s locked number
        obtain ⟨apart,before,_⟩ := gone.unlocked ready.unique ready locked
        rw [gone.other s apart] at number
        exact Or.inl ⟨before,number⟩
    · have rest : st'.sb.slots ≤ j := by
        rw [gone.sb]
        omega
      rw [FsState.volume_rest rest,FsState.volume_rest (Nat.not_lt.mp inside)]
  · rw [inode]
    rfl
  · rw [inode,copy]
    rfl

end free

end Lxos.Fs
