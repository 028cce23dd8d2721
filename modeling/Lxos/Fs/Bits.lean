import Lxos.Fs.Truncate

/-! `balloc` and `bfree` on any bitmap. A bit that is clear need not be that of a data
block here, so `balloc` may take a block of the bitmap itself. -/
namespace Lxos.Fs
open Lxos.Bytes

/-- The bits of block `c` of disk `d` are as they were, but for the one of block `b`. -/
def OneBit (st : FsState) (dev b : Nat) (value : Bool) (d c : Nat) (data : Block) : Prop :=
  ∀ i, ∀ j < 8, (data i).getLsbD j =
    if d = dev ∧ c = st.sb.bblock b ∧ i = b % bpb / 8 ∧ j = b % 8 then value else (st.disk d c i).getLsbD j

/-- Block `b` is taken: its bit is set, it is zero, and nothing else has changed. -/
structure Taken (dev b : Nat) (st st' : FsState) : Prop where
  sb : st'.sb = st.sb
  icache : st'.icache = st.icache
  zeroed : st'.disk dev b = zeros
  bit : ∀ d c, ¬(d = dev ∧ c = b) → OneBit st dev b true d c (st'.disk d c)
  marks : ∀ c < st.sb.size, (st'.volume dev).marked c ↔ (st.volume dev).marked c ∨ c = b

/-- Block `b` is free: its bit is clear, and nothing else has changed. -/
structure Freed (dev b : Nat) (st st' : FsState) : Prop where
  sb : st'.sb = st.sb
  icache : st'.icache = st.icache
  bit : ∀ d c, OneBit st dev b false d c (st'.disk d c)
  marks : ∀ c < st.sb.size, (st'.volume dev).marked c ↔ (st.volume dev).marked c ∧ c ≠ b

/-- The block is one of the bitmap's. -/
def Superblock.Bitmap (sb : Superblock) (b : Nat) : Prop := ∃ c < sb.size, sb.bblock c = b

section bits
variable {st st' : FsState} {dev b c d : Nat} {old : Block}

/-- A bit has one place, also where block numbers wrap around. -/
theorem bit_place (small : st.sb.size ≤ 2147483648) (hb : b < st.sb.size) (hc : c < st.sb.size)
    (block : st.sb.bblock c = st.sb.bblock b) (byte : c % bpb / 8 = b % bpb / 8) (bit : c % 8 = b % 8) : c = b := by
  change (c / 4096 + _) % 4294967296 = (b / 4096 + _) % 4294967296 at block
  change c % 4096 / 8 = b % 4096 / 8 at byte
  omega

theorem set_bit (old : Block) (k i : Nat) {j : Nat} (low : j < 8) :
    (blit old (k / 8) 1 (fun _ => old (k / 8) ||| bitMask k) i).getLsbD j =
      if i = k / 8 ∧ j = k % 8 then true else (old i).getLsbD j := by
  rcases eq_or_ne i (k / 8) with rfl | other
  · have value := @blit_inside old (fun _ => old (k / 8) ||| bitMask k) (k / 8) 1 0 (by decide)
    rw [Nat.add_zero] at value
    rw [value,BitVec.getLsbD_or,Volume.bitMask_bit k low]
    by_cases here : j = k % 8
    · rw [if_pos ⟨rfl,here⟩,decide_eq_true here,Bool.or_true]
    · rw [if_neg (fun both => here both.2),decide_eq_false here,Bool.or_false]
  · rw [blit_outside (by omega),if_neg (fun both => other both.1)]

theorem clear_bit (old : Block) (k i : Nat) {j : Nat} (low : j < 8) :
    (blit old (k / 8) 1 (fun _ => old (k / 8) &&& ~~~bitMask k) i).getLsbD j =
      if i = k / 8 ∧ j = k % 8 then false else (old i).getLsbD j := by
  rcases eq_or_ne i (k / 8) with rfl | other
  · have value := @blit_inside old (fun _ => old (k / 8) &&& ~~~bitMask k) (k / 8) 1 0 (by decide)
    rw [Nat.add_zero] at value
    rw [value,BitVec.getLsbD_and,BitVec.getLsbD_not,Volume.bitMask_bit k low,decide_eq_true low,Bool.true_and]
    by_cases here : j = k % 8
    · rw [if_pos ⟨rfl,here⟩,decide_eq_true here,Bool.not_true,Bool.and_false]
    · rw [if_neg (fun both => here both.2),decide_eq_false here,Bool.not_false,Bool.and_true]
  · rw [blit_outside (by omega),if_neg (fun both => other both.1)]

theorem OneBit.same (st : FsState) (value : Bool) (away : ¬(d = dev ∧ c = st.sb.bblock b)) :
    OneBit st dev b value d c (st.disk d c) :=
  fun _ _ _ => (if_neg fun here => away ⟨here.1,here.2.1⟩).symm

theorem OneBit.of_byte (value : Bool) {data : Block} (changed : ∀ i, ∀ j < 8, (data i).getLsbD j =
      if i = b % bpb / 8 ∧ j = b % bpb % 8 then value else (st.disk dev (st.sb.bblock b) i).getLsbD j) :
    OneBit st dev b value dev (st.sb.bblock b) data := by
  have position : b % bpb % 8 = b % 8 := Nat.mod_mod_of_dvd b (by decide)
  intro i j low
  rw [changed i j low,position]
  simp only [true_and]

theorem OneBit.marked (small : st.sb.size ≤ 2147483648) (hb : b < st.sb.size) (hc : c < st.sb.size) {value : Bool}
    (sb : st'.sb = st.sb) (bit : OneBit st dev b value dev (st.sb.bblock c) (st'.disk dev (st.sb.bblock c))) :
    (st'.volume dev).marked c ↔ if c = b then value = true else (st.volume dev).marked c := by
  have low : c % 8 < 8 := Nat.mod_lt _ (by decide)
  have read : (st'.volume dev).marked c ↔ (st'.disk dev (st.sb.bblock c) (c % bpb / 8)).getLsbD (c % 8) = true := by
    rw [← sb]
    rfl
  rw [read,bit _ _ low]
  rcases eq_or_ne c b with rfl | other
  · rw [if_pos ⟨rfl,rfl,rfl,rfl⟩,if_pos rfl]
  · rw [if_neg (fun here => other (bit_place small hb hc here.2.1 here.2.2.1 here.2.2.2)),if_neg other]
    rfl

theorem ballocBlocks_elsewhere (fuel : Nat) (st : FsState) (b : Nat) (other : d ≠ dev) :
    (ballocBlocks dev fuel st b).2.disk d = st.disk d := by
  induction fuel generalizing st b with
  | zero => rfl
  | succ fuel ih =>
    unfold ballocBlocks
    split
    · dsimp only
      split
      · funext c
        exact (bwrite_other _ _ _ _ (.inl other)).trans (bwrite_other _ _ _ _ (.inl other))
      · exact ih _ _
    · rfl

theorem balloc_taken (small : st.sb.size ≤ 2147483648) (allocated : Allocated dev (balloc st dev).1 st (balloc st dev).2)
    (away : ¬st.sb.Bitmap (balloc st dev).1) : Taken dev (balloc st dev).1 st (balloc st dev).2 := by
  have bit (d c : Nat) (apart : ¬(d = dev ∧ c = (balloc st dev).1)) :
      OneBit st dev (balloc st dev).1 true d c ((balloc st dev).2.disk d c) := by
    rcases eq_or_ne d dev with rfl | other
    · rw [allocated.disk]
      rcases eq_or_ne c (st.sb.bblock (balloc st d).1) with rfl | block
      · have apart : st.sb.bblock (balloc st d).1 ≠ (balloc st d).1 := fun same => away ⟨_,allocated.bound,same⟩
        have block : ((st.volume d).allocate (balloc st d).1).block (st.sb.bblock (balloc st d).1) = _ :=
          Volume.allocate_bitmap apart
        rw [block]
        exact .of_byte true fun i j low => set_bit (st.disk d _) ((balloc st d).1 % bpb) i low
      · rw [@Volume.allocate_block (st.volume d) _ c (fun same => apart ⟨rfl,same⟩) block]
        exact .same st true fun here => block here.2
    · rw [balloc,ballocBlocks_elsewhere _ _ _ other]
      exact .same st true fun here => other here.1
  refine ⟨allocated.sb,(balloc_io st dev).icache,?_,bit,fun c hc => ?_⟩
  · rw [allocated.disk]
    exact Volume.allocate_cleared
  · rw [OneBit.marked small allocated.bound hc allocated.sb (bit dev _ fun here => away ⟨c,hc,here.2⟩)]
    split
    · rename_i here
      exact iff_of_true rfl (.inr here)
    · rename_i other
      exact (or_iff_left other).symm

theorem bfree_freed (small : st.sb.size ≤ 2147483648) (super : st.Super dev) (bound : b < st.sb.size) :
    Freed dev b st (bfree st dev b) := by
  obtain ⟨sb,disk⟩ := bfree_disk super b
  have elsewhere (d : Nat) (other : d ≠ dev) : (bfree st dev b).disk d = st.disk d := by
    unfold bfree
    funext c
    dsimp only
    split
    · exact bwrite_other _ _ _ _ (.inl other)
    · exact bwrite_other _ _ _ _ (.inl other)
  have bit (d c : Nat) : OneBit st dev b false d c ((bfree st dev b).disk d c) := by
    rcases eq_or_ne d dev with rfl | other
    · rw [disk]
      rcases eq_or_ne c (st.sb.bblock b) with rfl | block
      · rw [show ((st.volume d).release b).block (st.sb.bblock b) = _ from Function.update_self _ _ _]
        exact .of_byte false fun i j low => clear_bit (st.disk d _) (b % bpb) i low
      · rw [show ((st.volume d).release b).block c = st.disk d c from Function.update_of_ne block _ _]
        exact .same st false fun here => block here.2
    · rw [elsewhere d other]
      exact .same st false fun here => other here.1
  refine ⟨sb,(bfree_io st dev b).icache,bit,fun c hc => ?_⟩
  rw [OneBit.marked small bound hc sb (bit dev _)]
  split
  · rename_i here
    exact iff_of_false Bool.false_ne_true fun both => both.2 here
  · rename_i other
    exact (and_iff_left other).symm

/-- A block that is taken and freed leaves no trace but in itself. -/
theorem taken_freed {st'' : FsState} (taken : Taken dev b st st') (freed : Freed dev b st' st'')
    (clear : ¬(st.volume dev).marked b) {d c : Nat} (apart : ¬(d = dev ∧ c = b)) : st''.disk d c = st.disk d c := by
  funext i
  apply BitVec.eq_of_getLsbD_eq
  intro j low
  rw [freed.bit d c i j low,taken.bit d c apart i j low,taken.sb]
  split
  · rename_i here
    obtain ⟨rfl,rfl,rfl,rfl⟩ := here
    exact (Bool.not_eq_true _ |>.mp clear).symm
  · rfl

end bits

/-- `balloc` and `bfree`, as far as they concern the bitmap. -/
structure BitmapOperations (st : FsState) (dev : Nat) : Prop where
  none : (balloc st dev).1 = 4294967295 ↔ ∀ b < st.sb.size, (st.volume dev).marked b
  nothing : (balloc st dev).1 = 4294967295 →
    (balloc st dev).2.disk = st.disk ∧ (balloc st dev).2.sb = st.sb ∧ (balloc st dev).2.icache = st.icache
  lowest : (balloc st dev).1 ≠ 4294967295 → (balloc st dev).1 < st.sb.size ∧
    ¬(st.volume dev).marked (balloc st dev).1 ∧ ∀ c < (balloc st dev).1, (st.volume dev).marked c
  taken : (balloc st dev).1 ≠ 4294967295 → ¬st.sb.Bitmap (balloc st dev).1 →
    Taken dev (balloc st dev).1 st (balloc st dev).2
  freed : st.Super dev → ∀ b < st.sb.size, Freed dev b st (bfree st dev b)
  restored : (balloc st dev).1 ≠ 4294967295 → ¬st.sb.Bitmap (balloc st dev).1 → st.Super dev → ¬st.sb.Bitmap 1 →
    (balloc st dev).1 ≠ 1 → ∀ d c, ¬(d = dev ∧ c = (balloc st dev).1) →
    (bfree (balloc st dev).2 dev (balloc st dev).1).disk d c = st.disk d c

theorem bitmap_operations (st : FsState) (dev : Nat) (small : st.sb.size ≤ 2147483648) : BitmapOperations st dev := by
  rcases balloc_spec st dev with allocated | ⟨failed,full⟩
  · have bound := allocated.bound
    have taken := balloc_taken small allocated
    refine ⟨iff_of_false (by omega) fun all => allocated.free (all _ bound),fun failed => by omega,
      fun _ => ⟨bound,allocated.free,allocated.lowest⟩,fun _ => taken,fun super b hb => bfree_freed small super hb,
      fun _ away super apart other d c elsewhere => ?_⟩
    have taken := taken away
    have super' : (balloc st dev).2.Super dev := by
      have first : (balloc st dev).2.disk dev 1 = st.disk dev 1 := by
        rw [allocated.disk]
        exact @Volume.allocate_block (st.volume dev) _ 1 other.symm fun same => apart ⟨_,bound,same.symm⟩
      unfold FsState.Super
      rw [first,taken.sb]
      exact super
    have freed := bfree_freed (by rw [taken.sb]; exact small) super' (by rw [taken.sb]; exact bound)
    exact taken_freed taken freed allocated.free elsewhere
  · exact ⟨iff_of_true failed full.full,fun _ => ⟨full.disk,full.sb,(balloc_io st dev).icache⟩,
      fun some_block => absurd failed some_block,fun some_block => absurd failed some_block,
      fun super b hb => bfree_freed small super hb,fun some_block => absurd failed some_block⟩

/-- A disk of 1000 blocks, of which the first 58 are marked, but not the bitmap itself. -/
def unmarkedBitmap : FsState where
  disk := fun _ b => if b = 58 then fun i => if i < 7 then 255 else if i = 7 then 3 else 0 else zeros
  sb := ⟨1000,941,200,30,2,32,58⟩
  icache := fun _ => ⟨Dinode.zero,0,0,0,false⟩
  stack := zeros
  trace := []

theorem unmarkedBitmap_bits : (∀ c < 58, (unmarkedBitmap.volume 1).marked c) ∧ ¬(unmarkedBitmap.volume 1).marked 58 := by
  have bits : ∀ c < 58, ((if c % 4096 / 8 < 7 then 255 else if c % 4096 / 8 = 7 then 3 else 0 : Byte)).getLsbD (c % 8) = true := by
    decide
  refine ⟨fun c low => ?_,Bool.false_ne_true⟩
  have place : unmarkedBitmap.sb.bblock c = 58 := by
    change (c / 4096 + 58) % 4294967296 = 58
    omega
  unfold Volume.marked
  change ((unmarkedBitmap.disk 1 (unmarkedBitmap.sb.bblock c) (c % 4096 / 8)).getLsbD (c % 8)) = true
  rw [place]
  exact bits c low

/-- `balloc` takes the bitmap and zeroes it. -/
theorem bitmap_overwritten : ¬∀ (st : FsState) (dev : Nat), (balloc st dev).1 ≠ 4294967295 → ∀ c < st.sb.size,
    (((balloc st dev).2.volume dev).marked c ↔ (st.volume dev).marked c ∨ c = (balloc st dev).1) := by
  intro all
  obtain ⟨below,free⟩ := unmarkedBitmap_bits
  rcases balloc_spec unmarkedBitmap 1 with allocated | ⟨_,full⟩
  · have block : (balloc unmarkedBitmap 1).1 = 58 := by
      have low : ¬58 < (balloc unmarkedBitmap 1).1 := fun more => free (allocated.lowest 58 more)
      have high : ¬(balloc unmarkedBitmap 1).1 < 58 := fun less => allocated.free (below _ less)
      omega
    have marked := (all unmarkedBitmap 1 (by rw [block]; decide) 0 (by decide)).mpr (.inl (below 0 (by decide)))
    unfold Volume.marked at marked
    have place : (balloc unmarkedBitmap 1).2.sb.bblock 0 = 58 := by
      rw [allocated.sb]
      rfl
    have zero : (balloc unmarkedBitmap 1).2.disk 1 58 = zeros := by
      rw [allocated.disk,block]
      exact Volume.allocate_cleared
    change ((balloc unmarkedBitmap 1).2.disk 1 ((balloc unmarkedBitmap 1).2.sb.bblock 0) 0).getLsbD 0 = true at marked
    rw [place,zero] at marked
    cases marked
  · exact free (full.full 58 (by decide))

theorem bitmap_operations_unmarked : BitmapOperations unmarkedBitmap 1 :=
  bitmap_operations unmarkedBitmap 1 (by decide)

end Lxos.Fs
