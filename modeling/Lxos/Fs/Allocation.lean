import Lxos.Fs.Volume
import Lxos.Fs.Bitmap
import Mathlib.Data.Nat.Bitwise

/-! How an allocation changes a volume: a free block is marked and cleared, and
then recorded at one position of one inode. Ownership and the content of every
file are preserved. -/
namespace Lxos.Fs.Volume
open Lxos.Bytes Lxos.Ownership

theorem ref_position {v : Volume} {p : Nat × Nat} (h : v.ref p ≠ 0) : p.1 < v.sb.slots ∧ p.2 ≤ 140 := by
  unfold ref at h
  split_ifs at h with bound
  · refine ⟨bound,?_⟩
    unfold Dinode.refAt at h
    split_ifs at h <;> omega
  · exact absurd rfl h

theorem ref_direct (v : Volume) {k i : Nat} (bound : k < v.sb.slots) (h : i < 12) :
    v.ref (k,i) = (v.inode k).addr i := by
  simp [ref,bound,Dinode.refAt,h]

theorem ref_indirect (v : Volume) {k : Nat} (bound : k < v.sb.slots) :
    v.ref (k,140) = (v.inode k).addr 12 := by
  simp [ref,bound,Dinode.refAt]

theorem ref_entry (v : Volume) {k j : Nat} (bound : k < v.sb.slots) (h : j < 128)
    (present : v.ref (k,140) ≠ 0) :
    v.ref (k,12+j) = (le32 (v.block (v.ref (k,140))) (4*j)).toNat := by
  rw [ref_indirect v bound] at present ⊢
  have low : ¬(12 + j < 12) := by omega
  have high : 12 + j < 140 := by omega
  have index : 12 + j - 12 = j := by omega
  simp only [ref,bound,if_true,Dinode.refAt,low,if_false,high,present,index]

theorem ref_entry_absent (v : Volume) {k j : Nat} (h : j < 128) (absent : v.ref (k,140) = 0) :
    v.ref (k,12+j) = 0 := by
  by_cases bound : k < v.sb.slots
  · rw [ref_indirect v bound] at absent
    have low : ¬(12 + j < 12) := by omega
    have high : 12 + j < 140 := by omega
    simp only [ref,bound,if_true,Dinode.refAt,low,if_false,high,absent]
  · simp only [ref,bound,if_false]

/-- Two volumes have the same block map if they agree on addresses and indirect blocks. -/
theorem ref_congr {v w : Volume} (sb : w.sb = v.sb) (addrs : ∀ k, (w.inode k).addrs = (v.inode k).addrs)
    (same : ∀ k, v.ref (k,140) ≠ 0 → w.block (v.ref (k,140)) = v.block (v.ref (k,140))) :
    w.ref = v.ref := by
  funext ⟨k,p⟩
  by_cases bound : k < v.sb.slots
  · have indirect := same k
    rw [ref_indirect v bound] at indirect
    simpa only [ref,sb,bound,if_true] using Dinode.refAt_congr (addrs k).symm indirect p
  · simp only [ref,sb,bound,if_false]

/-- Recording a direct address changes one position. -/
theorem ref_setAddr (v : Volume) {k i b : Nat} (bound : k < v.sb.slots) (h : i < 12)
    (width : b < 4294967296) :
    (v.setInode k ((v.inode k).setAddr i b)).ref = Function.update v.ref (k,i) b := by
  funext ⟨l,p⟩
  by_cases other : l = k
  · subst l
    have addr (j : Nat) (hj : j < 13) := Dinode.addr_setAddr (v.inode k) i j b hj width
    by_cases here : p = i
    · subst p
      rw [Function.update_self,ref_direct _ (by exact bound) h]
      simp only [setInode,Function.update_self,addr i (by omega),if_true]
    · rw [Function.update_of_ne (by simpa using here)]
      have twelve := addr 12 (by omega)
      rw [if_neg (by omega)] at twelve
      simp only [ref,setInode,bound,if_true,Function.update_self,Dinode.refAt,twelve]
      by_cases low : p < 12
      · simp only [low,if_true,addr p (by omega),here,if_false]
      · simp only [low,if_false]
  · have distinct : (l,p) ≠ (k,i) := fun h => other (congrArg Prod.fst h)
    rw [Function.update_of_ne distinct]
    simp only [ref,setInode,Function.update_of_ne other]

/-- A cleared block recorded as indirect block changes one position. -/
theorem ref_setIndirect (v : Volume) {k b : Nat} (bound : k < v.sb.slots) (width : b < 4294967296)
    (absent : v.ref (k,140) = 0) (cleared : v.block b = zeros) :
    (v.setInode k ((v.inode k).setAddr 12 b)).ref = Function.update v.ref (k,140) b := by
  funext ⟨l,p⟩
  by_cases other : l = k
  · subst l
    have addr (j : Nat) (hj : j < 13) := Dinode.addr_setAddr (v.inode k) 12 j b hj width
    have twelve := addr 12 (by omega)
    rw [if_pos rfl] at twelve
    by_cases here : p = 140
    · subst p
      rw [Function.update_self,ref_indirect _ (by exact bound)]
      simp only [setInode,Function.update_self,twelve]
    · rw [Function.update_of_ne (by simpa using here)]
      by_cases low : p < 12
      · rw [ref_direct _ (by exact bound) low,ref_direct v bound low]
        simp only [setInode,Function.update_self,addr p (by omega)]
        exact if_neg (by omega)
      · by_cases high : p < 140
        · have index : 12 + (p - 12) = p := by omega
          have old := ref_entry_absent v (j := p - 12) (by omega) absent
          rw [index] at old
          rw [old]
          simp only [ref,setInode,bound,if_true,Function.update_self,Dinode.refAt,low,high,
            if_false,twelve,cleared,le32_zeros]
          split <;> rfl
        · simp only [ref,setInode,bound,if_true,Dinode.refAt,low,high,if_false,here]
  · have distinct : (l,p) ≠ (k,140) := fun h => other (congrArg Prod.fst h)
    rw [Function.update_of_ne distinct]
    simp only [ref,setInode,Function.update_of_ne other]

theorem ref_setEntry (v : Volume) (exclusive : Exclusive v.ref) {k j b : Nat}
    (h : j < 128) (width : b < 4294967296) (present : v.ref (k,140) ≠ 0) :
    (v.setBlock (v.ref (k,140)) (put32 (v.block (v.ref (k,140))) (4*j) (BitVec.ofNat 32 b))).ref =
      Function.update v.ref (k,12+j) b := by
  have bound := (ref_position present).1
  have indirect (l : Nat) : (v.setBlock (v.ref (k,140))
      (put32 (v.block (v.ref (k,140))) (4*j) (BitVec.ofNat 32 b))).ref (l,140) = v.ref (l,140) := by
    simp only [ref,setBlock,Dinode.refAt]
    rfl
  funext ⟨l,p⟩
  by_cases entry : 12 ≤ p ∧ p < 140 ∧ v.ref (l,140) ≠ 0
  · obtain ⟨low,high,there⟩ := entry
    have inside := (ref_position there).1
    obtain ⟨i,rfl⟩ : ∃ i, p = 12 + i := ⟨p - 12,by omega⟩
    rw [ref_entry _ (by exact inside) (by omega) (by rw [indirect]; exact there),indirect]
    by_cases other : l = k
    · subst l
      simp only [setBlock,Function.update_self]
      by_cases here : i = j
      · subst i
        rw [Function.update_self,le32_put32,BitVec.toNat_ofNat]
        exact Nat.mod_eq_of_lt width
      · have distinct : (k,12+i) ≠ (k,12+j) := by simpa using here
        rw [Function.update_of_ne distinct,put32,le32_blit_outside (by omega),
          ref_entry v bound (by omega) there]
    · have distinct : (l,12+i) ≠ (k,12+j) := fun h => other (congrArg Prod.fst h)
      have elsewhere : v.ref (l,140) ≠ v.ref (k,140) :=
        fun equal => other (congrArg Prod.fst (exclusive _ _ there equal))
      rw [Function.update_of_ne distinct,ref_entry v inside (by omega) there]
      simp only [setBlock,Function.update_of_ne elsewhere]
  · have distinct : (l,p) ≠ (k,12+j) := by
      rintro equal
      obtain ⟨rfl,rfl⟩ := Prod.mk.inj equal
      exact entry ⟨by omega,by omega,present⟩
    rw [Function.update_of_ne distinct]
    by_cases inside : l < v.sb.slots
    · have absent : ¬(12 ≤ p ∧ p < 140) ∨ (v.inode l).addr 12 = 0 := by
        rw [← ref_indirect v inside]
        tauto
      simp only [ref,setBlock,inside,if_true,Dinode.refAt]
      split_ifs <;> first | rfl | omega
    · simp only [ref,setBlock,inside,if_false]

/-- A free block `b` becomes position `p` of inode `k`. -/
structure Claim (used used' : Nat → Prop) (k p b : Nat) (v w : Volume) : Prop where
  sb : w.sb = v.sb
  fresh : ¬used b
  bound : b < v.sb.size
  place : k < v.sb.slots
  empty : v.ref (k,p) = 0
  ref : w.ref = Function.update v.ref (k,p) b
  marks : ∀ c < v.sb.size, used' c ↔ used c ∨ c = b
  cleared : w.block b = zeros
  table : ∀ c < v.sb.bmapstart, w.block c = v.block c
  data : ∀ c, v.sb.nmeta ≤ c → c ≠ b → c ≠ v.ref (k,140) → w.block c = v.block c
  other : ∀ j, j ≠ k → w.inode j = v.inode j
  attrs : ∃ addrs, w.inode k = { v.inode k with addrs := addrs }

/-- What a change of inode `k` leaves alone: its type and link count, what it
owns, every byte of the inode table outside dinode `k`, and all other files. -/
structure Frame (used used' : Nat → Prop) (k : Nat) (v w : Volume) : Prop where
  sb : w.sb = v.sb
  other : ∀ j, j ≠ k → w.inode j = v.inode j
  attrs : ∃ addrs size, w.inode k = { v.inode k with addrs := addrs,size := size }
  table : ∀ c < v.sb.bmapstart, ∀ o, ¬(c = v.sb.iblock k ∧ k % 8 * 64 ≤ o ∧ o < k % 8 * 64 + 64) →
    w.block c o = v.block c o
  keep : ∀ p, v.ref p ≠ 0 → w.ref p = v.ref p
  foreign : ∀ p, p.1 ≠ k → w.ref p = v.ref p
  byte : ∀ j, j ≠ k → w.byte j = v.byte j
  indirect : ∀ j, j ≠ k → v.ref (j,140) ≠ 0 → w.block (v.ref (j,140)) = v.block (v.ref (j,140))
  grow : ∀ c < v.sb.size, used c → used' c
  exact : ∀ c < v.sb.size, used' c → used c ∨ ∃ p, w.ref p = c ∧ c ≠ 0

section claim
variable {used used' : Nat → Prop} {k p b : Nat} {v w : Volume}

theorem Owned.congr (owned : Owned used v) (same : ∀ c < v.sb.size, used c ↔ used' c) : Owned used' v where
  layout := owned.layout
  reserved := fun b h => (same b (by have := owned.layout.room; omega)).mp (owned.reserved b h)
  range := owned.range
  held := fun p h => (same _ (owned.range p h).2).mp (owned.held p h)
  exclusive := owned.exclusive

theorem Claim.nonzero (owned : Owned used v) (claim : Claim used used' k p b v w) :
    v.sb.nmeta ≤ b ∧ b ≠ 0 := by
  have low : v.sb.nmeta ≤ b := by
    by_contra less
    exact claim.fresh (owned.reserved b (by omega))
  have := owned.layout.super
  have := owned.layout.table
  rw [Superblock.nmeta_eq] at low ⊢
  omega

theorem Claim.unowned (owned : Owned used v) (claim : Claim used used' k p b v w) (q : Nat × Nat) :
    v.ref q ≠ b := by
  intro equal
  have nonzero : v.ref q ≠ 0 := by
    rw [equal]
    exact (claim.nonzero owned).2
  exact claim.fresh (equal ▸ owned.held q nonzero)

theorem Claim.owned (owned : Owned used v) (claim : Claim used used' k p b v w) : Owned used' w where
  layout := claim.sb ▸ owned.layout
  reserved := by
    intro c h
    rw [claim.sb] at h
    have := owned.layout.room
    exact (claim.marks c (by omega)).mpr (Or.inl (owned.reserved c h))
  range := by
    intro q
    rw [claim.ref,claim.sb]
    by_cases here : q = (k,p)
    · rw [here,Function.update_self]
      exact fun _ => ⟨(claim.nonzero owned).1,claim.bound⟩
    · rw [Function.update_of_ne here]
      exact owned.range q
  held := by
    intro q
    rw [claim.ref]
    by_cases here : q = (k,p)
    · rw [here,Function.update_self]
      exact fun _ => (claim.marks b claim.bound).mpr (Or.inr rfl)
    · rw [Function.update_of_ne here]
      exact fun h => (claim.marks _ (owned.range q h).2).mpr (Or.inl (owned.held q h))
  exclusive := by
    rw [claim.ref]
    exact owned.exclusive.claim _ b (claim.unowned owned)

/-- The new block is clear where the file had a hole. -/
theorem Claim.byte (owned : Owned used v) (claim : Claim used used' k p b v w) : w.byte = v.byte := by
  funext j off
  have width := owned.layout.width
  unfold Volume.byte Volume.addr
  by_cases index : off / 512 < 140
  · simp only [index,if_true,claim.ref]
    by_cases here : (j,off / 512) = (k,p)
    · rw [here,Function.update_self,claim.empty,claim.cleared]
      simp [zeros]
    · rw [Function.update_of_ne here]
      by_cases absent : v.ref (j,off / 512) = 0
      · simp only [absent,if_true]
      · have distinct : v.ref (j,off / 512) ≠ v.ref (k,140) := by
          intro equal
          have := congrArg Prod.snd (owned.exclusive _ _ absent equal)
          simp only at this
          omega
        rw [if_neg absent,if_neg absent,
          claim.data _ (owned.range _ absent).1 (claim.unowned owned _) distinct]
  · have apart : 4294967295 ≠ v.ref (k,140) := by
      intro equal
      have := (owned.range (k,140) (by omega)).2
      omega
    have room := owned.layout.room
    have := claim.bound
    simp only [index,if_false]
    rw [claim.data _ (by omega) (by omega) apart]

theorem Claim.frame (owned : Owned used v) (claim : Claim used used' k p b v w) :
    Frame used used' k v w where
  sb := claim.sb
  other := claim.other
  attrs := by
    obtain ⟨a,ha⟩ := claim.attrs
    exact ⟨a,_,ha⟩
  table := fun c h o _ => congrFun (claim.table c h) o
  keep := by
    intro q nonzero
    rw [claim.ref,Function.update_of_ne]
    rintro rfl
    exact nonzero claim.empty
  foreign := by
    intro q away
    rw [claim.ref,Function.update_of_ne]
    rintro rfl
    exact away rfl
  byte := fun _ _ => congrFun (claim.byte owned) _
  indirect := by
    intro j away nonzero
    refine claim.data _ (owned.range _ nonzero).1 (claim.unowned owned _) (fun equal => away ?_)
    exact congrArg Prod.fst (owned.exclusive _ _ nonzero equal)
  grow := fun c h used => (claim.marks c h).mpr (Or.inl used)
  exact := by
    intro c h marked
    rcases (claim.marks c h).mp marked with old | rfl
    · exact Or.inl old
    · exact Or.inr ⟨(k,p),by rw [claim.ref,Function.update_self],(claim.nonzero owned).2⟩

theorem Frame.refl (used : Nat → Prop) (k : Nat) (v : Volume) : Frame used used k v v where
  sb := rfl
  other := fun _ _ => rfl
  attrs := ⟨_,_,rfl⟩
  table := fun _ _ _ _ => rfl
  keep := fun _ _ => rfl
  foreign := fun _ _ => rfl
  byte := fun _ _ => rfl
  indirect := fun _ _ _ => rfl
  grow := fun _ _ h => h
  exact := fun _ _ h => Or.inl h

theorem Frame.trans {used'' : Nat → Prop} {x : Volume} (first : Frame used used' k v w)
    (second : Frame used' used'' k w x) : Frame used used'' k v x where
  sb := second.sb.trans first.sb
  other := fun j h => (second.other j h).trans (first.other j h)
  attrs := by
    obtain ⟨a,s,ha⟩ := first.attrs
    obtain ⟨b,t,hb⟩ := second.attrs
    exact ⟨b,t,by rw [hb,ha]⟩
  table := by
    intro c h o away
    rw [second.table c (by rw [first.sb]; exact h) o (by rw [first.sb]; exact away),first.table c h o away]
  keep := by
    intro p nonzero
    have middle := first.keep p nonzero
    rw [second.keep p (by rw [middle]; exact nonzero),middle]
  foreign := fun p h => (second.foreign p h).trans (first.foreign p h)
  byte := fun j h => (second.byte j h).trans (first.byte j h)
  indirect := by
    intro j away nonzero
    have middle := first.foreign (j,140) away
    have last := second.indirect j away (by rw [middle]; exact nonzero)
    rw [middle] at last
    exact last.trans (first.indirect j away nonzero)
  grow := fun c h used => second.grow c (by rw [first.sb]; exact h) (first.grow c h used)
  exact := by
    intro c h last
    rcases second.exact c (by rw [first.sb]; exact h) last with middle | new
    · rcases first.exact c h middle with old | ⟨p,hp,nonzero⟩
      · exact Or.inl old
      · exact Or.inr ⟨p,by rw [second.keep p (by rw [hp]; exact nonzero),hp],nonzero⟩
    · exact Or.inr new

end claim

section bits

theorem bitMask_bit (bi : Nat) {i : Nat} (h : i < 8) : (bitMask bi).getLsbD i = decide (i = bi % 8) := by
  have all : ∀ r < 8, ∀ i < 8, (1#8 <<< r).getLsbD i = decide (i = r) := by decide
  exact all (bi % 8) (Nat.mod_lt _ (by omega)) i h

theorem bitMask_test (x : Byte) (bi : Nat) : x &&& bitMask bi = 0 ↔ x.getLsbD (bi % 8) = false := by
  have small : bi % 8 < 8 := Nat.mod_lt _ (by omega)
  constructor
  · intro clear
    have bit := congrArg (fun y => y.getLsbD (bi % 8)) clear
    simpa [bitMask_bit bi small] using bit
  · intro clear
    apply BitVec.eq_of_getLsbD_eq
    intro i h
    rw [BitVec.getLsbD_and,bitMask_bit bi h]
    by_cases here : i = bi % 8
    · rw [here,clear]
      simp
    · simp [here]

end bits

/-- What `balloc` does to the disk: bit `b` set, block `b` cleared. -/
def allocate (v : Volume) (b : Nat) : Volume :=
  let bno := v.sb.bblock b
  let bi := b % bpb
  (v.setBlock bno (blit (v.block bno) (bi / 8) 1 (fun _ => v.block bno (bi / 8) ||| bitMask bi))).setBlock b zeros

section allocate
variable {v : Volume} {b : Nat}

theorem allocate_block (c : Nat) (h : c ≠ b) (away : c ≠ v.sb.bblock b) :
    (v.allocate b).block c = v.block c := by
  simp only [allocate,setBlock,Function.update_of_ne h,Function.update_of_ne away]

theorem allocate_cleared : (v.allocate b).block b = zeros := by
  simp only [allocate,setBlock,Function.update_self]

theorem allocate_bitmap (away : v.sb.bblock b ≠ b) : (v.allocate b).block (v.sb.bblock b) =
    blit (v.block (v.sb.bblock b)) (b % 4096 / 8) 1
      (fun _ => v.block (v.sb.bblock b) (b % 4096 / 8) ||| bitMask (b % 4096)) := by
  simp only [allocate,setBlock,Function.update_of_ne away,Function.update_self]

theorem marked_congr {w : Volume} (sb : w.sb = v.sb) {c : Nat}
    (byte : w.block (v.sb.bblock c) (c % 4096 / 8) = v.block (v.sb.bblock c) (c % 4096 / 8)) :
    w.marked c ↔ v.marked c := by
  unfold marked
  rw [sb,byte]

theorem allocate_marked (layout : v.sb.Layout) (data : v.sb.nmeta ≤ b) (bound : b < v.sb.size)
    {c : Nat} (h : c < v.sb.size) : (v.allocate b).marked c ↔ v.marked c ∨ c = b := by
  have small : c % 8 < 8 := Nat.mod_lt _ (by omega)
  have apart : v.sb.bblock b ≠ b := by
    have := layout.bblock_range bound
    omega
  by_cases place : v.sb.bblock c = v.sb.bblock b ∧ c % 4096 / 8 = b % 4096 / 8
  · have same : c % 8 = b % 4096 % 8 ↔ c = b := by
      refine ⟨fun bit => layout.bit_injective h bound place.1 place.2 (by omega),?_⟩
      rintro rfl
      omega
    have value : (v.allocate b).block (v.sb.bblock c) (c % 4096 / 8) =
        v.block (v.sb.bblock c) (c % 4096 / 8) ||| bitMask (b % 4096) := by
      rw [place.1,place.2,allocate_bitmap apart]
      exact blit_inside (i := 0) (by omega)
    change (((v.allocate b).block (v.sb.bblock c) (c % 4096 / 8)).getLsbD (c % 8) = true) ↔ _
    rw [value,BitVec.getLsbD_or,bitMask_bit _ small,Bool.or_eq_true,decide_eq_true_iff,same]
    rfl
  · have distinct : c ≠ b := by
      rintro rfl
      exact place ⟨rfl,rfl⟩
    have value : (v.allocate b).block (v.sb.bblock c) (c % 4096 / 8) =
        v.block (v.sb.bblock c) (c % 4096 / 8) := by
      by_cases block : v.sb.bblock c = v.sb.bblock b
      · rw [block,allocate_bitmap apart]
        exact blit_outside (by omega)
      · have range := layout.bblock_range h
        rw [allocate_block _ (by omega) block]
    rw [marked_congr (v := v) (w := v.allocate b) rfl value]
    exact ⟨Or.inl,fun h => h.resolve_right distinct⟩

end allocate

/-- A change of blocks below the data area, or of unowned ones, keeps the block map. -/
theorem allocate_ref {v : Volume} {b : Nat} (sound : v.Sound) (free : ¬v.marked b) (bound : b < v.sb.size) :
    (v.allocate b).ref = v.ref := by
  refine ref_congr rfl (fun _ => rfl) (fun k present => allocate_block _ ?_ ?_)
  · intro equal
    exact free (equal ▸ sound.held _ present)
  · have := (sound.range _ present).1
    have := (sound.layout.bblock_range bound).2
    omega

section record
variable {v : Volume} {k b : Nat}

theorem data_of_free (sound : v.Sound) (free : ¬v.marked b) : v.sb.nmeta ≤ b := by
  by_contra less
  exact free (sound.reserved b (by omega))

theorem allocate_table (sound : v.Sound) (free : ¬v.marked b) (bound : b < v.sb.size)
    (c : Nat) (h : c < v.sb.bmapstart) : (v.allocate b).block c = v.block c := by
  have low := data_of_free sound free
  have := (sound.layout.bblock_range bound).1
  rw [Superblock.nmeta_eq] at low
  exact allocate_block _ (by omega) (by omega)

theorem allocate_data (sound : v.Sound) (bound : b < v.sb.size)
    (c : Nat) (h : v.sb.nmeta ≤ c) (away : c ≠ b) : (v.allocate b).block c = v.block c := by
  have := (sound.layout.bblock_range bound).2
  exact allocate_block _ away (by omega)

theorem claim_addr (sound : v.Sound) (free : ¬v.marked b) (bound : b < v.sb.size)
    (place : k < v.sb.slots) {p i : Nat} (index : p = i ∧ i < 12 ∨ p = 140 ∧ i = 12)
    (empty : v.ref (k,p) = 0) :
    Claim v.marked ((v.allocate b).setInode k ((v.inode k).setAddr i b)).marked k p b v
      ((v.allocate b).setInode k ((v.inode k).setAddr i b)) where
  sb := rfl
  fresh := free
  bound := bound
  place := place
  empty := empty
  ref := by
    have width : b < 4294967296 := Nat.lt_trans bound sound.layout.width
    rw [← allocate_ref sound free bound] at empty ⊢
    rcases index with ⟨rfl,low⟩ | ⟨rfl,rfl⟩
    · exact ref_setAddr (v.allocate b) (by exact place) low width
    · exact ref_setIndirect (v.allocate b) (by exact place) width empty allocate_cleared
  marks := fun c h => allocate_marked sound.layout (data_of_free sound free) bound h
  cleared := allocate_cleared
  table := allocate_table sound free bound
  data := fun c low away _ => allocate_data sound bound c low away
  other := fun j away => Function.update_of_ne away _ _
  attrs := ⟨_,Function.update_self _ _ _⟩

theorem claim_entry (sound : v.Sound) (free : ¬v.marked b) (bound : b < v.sb.size)
    {j : Nat} (index : j < 128) (present : v.ref (k,140) ≠ 0) (empty : v.ref (k,12+j) = 0) :
    let w := (v.allocate b).setBlock (v.ref (k,140))
      (put32 ((v.allocate b).block (v.ref (k,140))) (4*j) (BitVec.ofNat 32 b))
    Claim v.marked w.marked k (12+j) b v w := by
  intro w
  have same := allocate_ref sound free bound
  have range := sound.range _ present
  have away : v.ref (k,140) ≠ b := by
    intro equal
    exact free (equal ▸ sound.held _ present)
  refine ⟨rfl,free,bound,(ref_position present).1,empty,?_,?_,?_,?_,?_,fun _ _ => rfl,⟨_,rfl⟩⟩
  · have width : b < 4294967296 := Nat.lt_trans bound sound.layout.width
    have exclusive := sound.exclusive
    rw [← same] at exclusive present ⊢
    simpa only [same] using ref_setEntry (v.allocate b) exclusive index width present
  · intro c h
    rw [← allocate_marked sound.layout (data_of_free sound free) bound h]
    have := sound.layout.bblock_range h
    have apart : v.sb.bblock c ≠ v.ref (k,140) := by omega
    have byte : w.block (v.sb.bblock c) = (v.allocate b).block (v.sb.bblock c) :=
      Function.update_of_ne apart _ _
    exact marked_congr (v := v.allocate b) (w := w) rfl (congrFun byte _)
  · simpa only [w,setBlock,Function.update_of_ne away.symm] using allocate_cleared
  · intro c h
    have apart : c ≠ v.ref (k,140) := by
      have := range.1
      rw [Superblock.nmeta_eq] at this
      omega
    simpa only [w,setBlock,Function.update_of_ne apart] using allocate_table sound free bound c h
  · intro c low fresh apart
    simpa only [w,setBlock,Function.update_of_ne apart] using allocate_data sound bound c low fresh

end record

/-! A write to a block that holds file data. -/
section store
variable {used used' : Nat → Prop} {v : Volume} {k p : Nat} {data : Block}

theorem store_ref (owned : Owned used v) (index : p < 140) :
    (v.setBlock (v.ref (k,p)) data).ref = v.ref := by
  refine ref_congr rfl (fun _ => rfl) (fun j there => Function.update_of_ne ?_ _ _)
  intro equal
  have := congrArg Prod.snd (owned.exclusive _ _ there equal)
  simp only at this
  omega

theorem store_owned (owned : Owned used v) (index : p < 140) :
    Owned used (v.setBlock (v.ref (k,p)) data) := by
  have same : (v.setBlock (v.ref (k,p)) data).ref = v.ref := store_ref owned index
  exact ⟨owned.layout,owned.reserved,by rw [same]; exact owned.range,
    by rw [same]; exact owned.held,by rw [same]; exact owned.exclusive⟩

theorem store_marked (owned : Owned used v) (present : v.ref (k,p) ≠ 0) {c : Nat} (h : c < v.sb.size) :
    (v.setBlock (v.ref (k,p)) data).marked c ↔ v.marked c := by
  have := (owned.range _ present).1
  have := owned.layout.bblock_range h
  have byte : (v.setBlock (v.ref (k,p)) data).block (v.sb.bblock c) = v.block (v.sb.bblock c) :=
    Function.update_of_ne (by omega) _ _
  exact marked_congr (v := v) (w := v.setBlock (v.ref (k,p)) data) rfl (congrFun byte _)

theorem store_byte (owned : Owned used v) (index : p < 140) (present : v.ref (k,p) ≠ 0) (j off : Nat) :
    (v.setBlock (v.ref (k,p)) data).byte j off =
      if j = k ∧ off / 512 = p then data (off % 512) else v.byte j off := by
  have width := owned.layout.width
  unfold Volume.byte Volume.addr
  rw [store_ref owned index]
  by_cases here : j = k ∧ off / 512 = p
  · rw [if_pos here,here.1,here.2,if_pos index,if_neg present]
    exact congrFun (Function.update_self _ _ _) _
  · rw [if_neg here]
    by_cases low : off / 512 < 140
    · simp only [low,if_true]
      by_cases absent : v.ref (j,off / 512) = 0
      · simp only [absent,if_true]
      · have apart : v.ref (j,off / 512) ≠ v.ref (k,p) := by
          intro equal
          exact here (Prod.mk.inj (owned.exclusive _ _ absent equal))
        rw [if_neg absent,if_neg absent]
        exact congrFun (Function.update_of_ne apart _ _) _
    · have := (owned.range _ present).2
      have outside : (v.setBlock (v.ref (k,p)) data).block 4294967295 = v.block 4294967295 :=
        Function.update_of_ne (by omega) _ _
      simp only [low,if_false,outside]

theorem store_frame (owned : Owned used v) (index : p < 140) (present : v.ref (k,p) ≠ 0)
    (same : ∀ c < v.sb.size, used' c ↔ used c) :
    Frame used used' k v (v.setBlock (v.ref (k,p)) data) where
  sb := rfl
  other := fun _ _ => rfl
  attrs := ⟨_,_,rfl⟩
  table := by
    intro c h o _
    have := (owned.range _ present).1
    rw [Superblock.nmeta_eq] at this
    exact congrFun (Function.update_of_ne (by omega) _ _) o
  keep := fun _ _ => by rw [store_ref owned index]
  foreign := fun _ _ => by rw [store_ref owned index]
  byte := by
    intro j away
    funext off
    rw [store_byte owned index present,if_neg (fun h => away h.1)]
  indirect := by
    intro j away there
    refine Function.update_of_ne (fun equal => away ?_) _ _
    exact congrArg Prod.fst (owned.exclusive _ _ there equal)
  grow := fun c h => (same c h).mpr
  exact := fun c h last => Or.inl ((same c h).mp last)

end store

/-! A write to the inode table, and a new size. -/
section resize
variable {used : Nat → Prop} {v : Volume} {k c : Nat} {data : Block} {d : Dinode}

theorem meta_ref (owned : Owned used v) (h : c < v.sb.nmeta) : (v.setBlock c data).ref = v.ref := by
  refine ref_congr rfl (fun _ => rfl) (fun j there => Function.update_of_ne ?_ _ _)
  have := (owned.range _ there).1
  omega

theorem meta_byte (owned : Owned used v) (h : c < v.sb.nmeta) : (v.setBlock c data).byte = v.byte := by
  funext j off
  have width := owned.layout.width
  have room := owned.layout.room
  have outside (a : Nat) (high : v.sb.nmeta ≤ a) : (v.setBlock c data).block a = v.block a :=
    Function.update_of_ne (by omega) _ _
  unfold Volume.byte Volume.addr
  rw [meta_ref owned h]
  by_cases index : off / 512 < 140
  · simp only [index,if_true]
    by_cases absent : v.ref (j,off / 512) = 0
    · simp only [absent,if_true]
    · rw [if_neg absent,if_neg absent,outside _ (owned.range _ absent).1]
  · simp only [index,if_false]
    rw [outside _ (by omega)]

theorem meta_owned (owned : Owned used v) (h : c < v.sb.nmeta) : Owned used (v.setBlock c data) := by
  have same : (v.setBlock c data).ref = v.ref := meta_ref owned h
  exact ⟨owned.layout,owned.reserved,by rw [same]; exact owned.range,
    by rw [same]; exact owned.held,by rw [same]; exact owned.exclusive⟩

theorem table_meta (h : c < v.sb.bmapstart) : c < v.sb.nmeta :=
  Nat.lt_of_lt_of_le h (Nat.le_add_right _ _)

theorem table_ref (owned : Owned used v) (h : c < v.sb.bmapstart) : (v.setBlock c data).ref = v.ref :=
  meta_ref owned (table_meta h)

theorem table_marked (layout : v.sb.Layout) (h : c < v.sb.bmapstart) {b : Nat} (bound : b < v.sb.size) :
    (v.setBlock c data).marked b ↔ v.marked b := by
  have := layout.bblock_range bound
  have byte : (v.setBlock c data).block (v.sb.bblock b) = v.block (v.sb.bblock b) :=
    Function.update_of_ne (by omega) _ _
  exact marked_congr (v := v) (w := v.setBlock c data) rfl (congrFun byte _)

theorem table_byte (owned : Owned used v) (h : c < v.sb.bmapstart) : (v.setBlock c data).byte = v.byte :=
  meta_byte owned (table_meta h)

theorem table_owned (owned : Owned used v) (h : c < v.sb.bmapstart) : Owned used (v.setBlock c data) :=
  meta_owned owned (table_meta h)

theorem setInode_ref (addrs : d.addrs = (v.inode k).addrs) : (v.setInode k d).ref = v.ref := by
  refine ref_congr rfl (fun j => ?_) (fun _ _ => rfl)
  by_cases here : j = k
  · simp only [here,setInode,Function.update_self,addrs]
  · simp only [setInode,Function.update_of_ne here]

theorem setInode_byte (addrs : d.addrs = (v.inode k).addrs) : (v.setInode k d).byte = v.byte := by
  funext j off
  simp only [Volume.byte,Volume.addr,setInode_ref addrs]
  rfl

theorem setInode_owned (owned : Owned used v) (addrs : d.addrs = (v.inode k).addrs) :
    Owned used (v.setInode k d) := by
  have same := setInode_ref addrs
  exact ⟨owned.layout,owned.reserved,by rw [same]; exact owned.range,
    by rw [same]; exact owned.held,by rw [same]; exact owned.exclusive⟩

end resize

end Lxos.Fs.Volume
