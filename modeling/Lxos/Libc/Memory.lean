import Lxos.Library.Bytes
import Lxos.Library.Windows
import Mathlib.Tactic.IntervalCases

/-! `memset` and `memmove` of `string.c`, on the 32-bit memory a pointer sees. -/
namespace Lxos.Libc
open Lxos.Bytes Lxos.Windows

abbrev Address := BitVec 32

abbrev Memory := Address → Byte

/-- `cld; rep stosb`: `al` goes up from `edi`, `ecx` times. -/
def stosb (m : Memory) (edi : Address) (eax : BitVec 32) : Nat → Memory
  | 0 => m
  | ecx+1 => stosb (Function.update m edi (eax.setWidth 8)) (edi + 1) eax ecx

/-- A word in memory, its low byte first. -/
def putWord (m : Memory) (a : Address) (v : BitVec 32) : Memory :=
  let m := Function.update m a (v.extractLsb' 0 8)
  let m := Function.update m (a + 1) (v.extractLsb' 8 8)
  let m := Function.update m (a + 2) (v.extractLsb' 16 8)
  Function.update m (a + 3) (v.extractLsb' 24 8)

/-- `cld; rep stosl`. -/
def stosl (m : Memory) (edi : Address) (eax : BitVec 32) : Nat → Memory
  | 0 => m
  | ecx+1 => stosl (putWord m edi eax) (edi + 4) eax ecx

/-- What it leaves in memory, and what it returns. The address is signed where it is divided. -/
def memset (m : Memory) (dst : Address) (c n : BitVec 32) : Memory × Address :=
  if dst.srem 4 = 0 ∧ n % 4 = 0 then
    let c := c &&& 0xFF
    (stosl m dst ((c <<< 24) ||| (c <<< 16) ||| (c <<< 8) ||| c) (n / 4).toNat,dst)
  else (stosb m dst c n.toNat,dst)

/-- `*--d = *--s`, `n` times. -/
def copyDown : Nat → Memory → Address → Address → Memory
  | 0, m, _, _ => m
  | n+1, m, s, d =>
    let s := s - 1
    let d := d - 1
    copyDown n (Function.update m d (m s)) s d

/-- `*d++ = *s++`, `n` times. -/
def copyUp : Nat → Memory → Address → Address → Memory
  | 0, m, _, _ => m
  | n+1, m, s, d => copyUp n (Function.update m d (m s)) (s + 1) (d + 1)

def memmove (m : Memory) (dst src : Address) (n : BitVec 32) : Memory × Address :=
  if src < dst ∧ src + n > dst then (copyDown n.toNat m (src + n) (dst + n),dst)
  else (copyUp n.toNat m src dst,dst)

section memset
variable {m : Memory} {dst edi : Address} {c eax v : BitVec 32} {al : Byte} {k n : Nat}

theorem address_next (a : Address) (k : Nat) : a + BitVec.ofNat 32 k + 1 = a + BitVec.ofNat 32 (k+1) := by
  rw [BitVec.ofNat_add,← add_assoc]
  rfl

theorem stosb_filled (small : k + n ≤ 2 ^ 32) :
    stosb (filled m dst (eax.setWidth 8) k) (dst + BitVec.ofNat 32 k) eax n = filled m dst (eax.setWidth 8) (k + n) := by
  induction n generalizing k with
  | zero => rfl
  | succ n ih =>
    unfold stosb
    rw [filled_step (by omega),address_next,ih (by omega)]
    congr 1
    omega

theorem stosb_spec (small : n ≤ 2 ^ 32) : stosb m dst eax n = filled m dst (eax.setWidth 8) n := by
  have run := @stosb_filled m dst eax 0 n (by omega)
  rw [filled_none,Nat.zero_add] at run
  rw [← run]
  congr 1
  exact (add_zero dst).symm

/-- A word of one byte four times is four bytes. -/
theorem putWord_stosb (bytes : ∀ i < 4, v.extractLsb' (8 * i) 8 = eax.setWidth 8) :
    stosb (putWord m edi v) (edi + 4) eax n = stosb m edi eax (n + 4) := by
  have first := bytes 0 (by decide)
  have second := bytes 1 (by decide)
  have third := bytes 2 (by decide)
  have last := bytes 3 (by decide)
  simp only [Nat.mul_zero,Nat.mul_one,Nat.reduceMul] at first second third last
  unfold putWord
  rw [first,second,third,last]
  simp only [stosb,add_assoc]
  rfl

/-- The word path is the byte path. -/
theorem stosl_stosb (bytes : ∀ i < 4, v.extractLsb' (8 * i) 8 = eax.setWidth 8) :
    stosl m edi v n = stosb m edi eax (4 * n) := by
  induction n generalizing m edi with
  | zero => rfl
  | succ n ih =>
    rw [Nat.mul_succ,← putWord_stosb bytes]
    exact ih

/-- Each byte of the replicated word is the low byte of `c`. -/
theorem replicated (i : Nat) (low : i < 4) :
    (((c &&& 0xFF) <<< 24) ||| ((c &&& 0xFF) <<< 16) ||| ((c &&& 0xFF) <<< 8) ||| (c &&& 0xFF)).extractLsb' (8 * i) 8 =
      c.setWidth 8 := by
  apply BitVec.eq_of_getLsbD_eq
  intro j inside
  interval_cases i <;> interval_cases j <;> simp

theorem memset_stosb (n : BitVec 32) : memset m dst c n = (stosb m dst c n.toNat,dst) := by
  unfold memset
  split
  · rename_i aligned
    have whole : 4 * (n / 4).toNat = n.toNat := by
      have rest := congrArg BitVec.toNat aligned.2
      rw [BitVec.toNat_umod] at rest
      rw [BitVec.toNat_udiv]
      exact Nat.mul_div_cancel' (Nat.dvd_of_mod_eq_zero rest)
    rw [← whole]
    exact congrArg (·,dst) (stosl_stosb replicated)
  · rfl

/-- `n` bytes from `dst` on, which may wrap around, are `c` modulo 256 afterwards. -/
theorem memset_spec (m : Memory) (dst : Address) (c n : BitVec 32) :
    (memset m dst c n).2 = dst ∧ ∀ a, (memset m dst c n).1 a =
      if (a - dst).toNat < n.toNat then BitVec.ofInt 8 (c.toInt % 256) else m a := by
  rw [memset_stosb,stosb_spec (le_of_lt n.isLt)]
  refine ⟨rfl,fun a => ?_⟩
  have byte : c.setWidth 8 = BitVec.ofInt 8 (c.toInt % 256) := by
    apply BitVec.eq_of_toNat_eq
    rw [BitVec.toNat_setWidth,BitVec.toNat_ofInt]
    rw [BitVec.toInt_eq_toNat_cond]
    split <;> omega
  rw [byte]
  rfl

-- An address of the kernel is negative, and so is the `int`.
example : (memset (fun _ => 0) 0x80000004 (-2) 8).1 0x8000000B = 254 := by decide

end memset

section memmove
variable {m : Memory} {dst src : Address} {k n : Nat}

theorem address_previous (a : Address) (k : Nat) : a + BitVec.ofNat 32 (k+1) - 1 = a + BitVec.ofNat 32 k := by
  rw [← address_next,add_sub_cancel_right]

/-- Going up, the places to read have not been written: they lie above the window. -/
theorem copyUp_copied (room : offset src dst + (k + n) ≤ 2 ^ 32) :
    copyUp n (copied m src dst 0 k) (src + BitVec.ofNat 32 k) (dst + BitVec.ofNat 32 k) = copied m src dst 0 (k + n) := by
  induction n generalizing k with
  | zero => rfl
  | succ n ih =>
    have above := @offset_above 32 src dst k (k + (n+1)) room (by omega)
    unfold copyUp
    rw [copied_spared (Or.inr (by omega)),@copied_step 32 _ m src dst k 0 k 0 (k+1) (by omega) (fun i => by omega),
      address_next,address_next,ih (by omega)]
    congr 1
    omega

/-- Going down, they lie under it, or past its end. -/
theorem copyDown_copied (room : offset dst src + k ≤ 2 ^ 32) (low : n ≤ k) :
    copyDown n (copied m src dst n k) (src + BitVec.ofNat 32 n) (dst + BitVec.ofNat 32 n) = copied m src dst 0 k := by
  induction n with
  | zero => rfl
  | succ n ih =>
    have spared := offset_below room low
    unfold copyDown
    dsimp only
    rw [address_previous,address_previous,copied_spared (by omega),@copied_step 32 _ m src dst n (n+1) k n k (by omega) (fun i => by omega)]
    exact ih (by omega)

theorem memmove_copied (n : BitVec 32) (source : src.toNat + n.toNat ≤ 2 ^ 32) (destination : dst.toNat + n.toNat ≤ 2 ^ 32) :
    memmove m dst src n = (copied m src dst 0 n.toNat,dst) := by
  have small := n.isLt
  unfold memmove
  split
  · rename_i down
    have run := @copyDown_copied m dst src n.toNat n.toNat (by unfold offset; bv_omega) (le_refl _)
    rw [copied_none,BitVec.ofNat_toNat,BitVec.setWidth_eq] at run
    rw [run]
  · rename_i up
    have run := @copyUp_copied m dst src 0 n.toNat (by unfold offset; bv_omega)
    rw [copied_none,Nat.zero_add] at run
    rw [← run]
    congr 2
    · exact (add_zero src).symm
    · exact (add_zero dst).symm

end memmove

/-- The ranges may end where the addresses do, and overlap in any way. -/
theorem memmove_spec (m : Memory) (dst src : Address) (n : BitVec 32) (source : src.toNat + n.toNat ≤ 2 ^ 32)
    (destination : dst.toNat + n.toNat ≤ 2 ^ 32) :
    (memmove m dst src n).2 = dst ∧
    (∀ k < n.toNat, (memmove m dst src n).1 (dst + BitVec.ofNat 32 k) = m (src + BitVec.ofNat 32 k)) ∧
    ∀ a, a.toNat < dst.toNat ∨ dst.toNat + n.toNat ≤ a.toNat → (memmove m dst src n).1 a = m a := by
  have small := n.isLt
  rw [memmove_copied n source destination]
  refine ⟨rfl,fun k low => ?_,fun a outside => ?_⟩
  · have place := @offset_add 32 dst k (by omega)
    have taken : copied m src dst 0 n.toNat (dst + BitVec.ofNat 32 k) = m (src + (dst + BitVec.ofNat 32 k - dst)) :=
      if_pos (by omega)
    rw [add_sub_cancel_left] at taken
    exact taken
  · exact copied_spared (Or.inr (by unfold offset; bv_omega))

/-- Eight bytes moved up by four, to the last address. -/
theorem memmove_spec_top : (memmove (BitVec.setWidth 8) 0xFFFFFFF8 0xFFFFFFF4 8).2 = 0xFFFFFFF8 ∧
    (∀ k < 8, (memmove (BitVec.setWidth 8) 0xFFFFFFF8 0xFFFFFFF4 8).1 (0xFFFFFFF8 + BitVec.ofNat 32 k) =
      BitVec.setWidth 8 (0xFFFFFFF4 + BitVec.ofNat 32 k)) ∧
    ∀ a : Address, a.toNat < 0xFFFFFFF8 ∨ 0x100000000 ≤ a.toNat →
      (memmove (BitVec.setWidth 8) 0xFFFFFFF8 0xFFFFFFF4 8).1 a = a.setWidth 8 :=
  memmove_spec (BitVec.setWidth 8) 0xFFFFFFF8 0xFFFFFFF4 8 (by decide) (by decide)

end Lxos.Libc
