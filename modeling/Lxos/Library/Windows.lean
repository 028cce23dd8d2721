import Mathlib.Data.BitVec
import Mathlib.Tactic.Abel
import Mathlib.Logic.Function.Basic

/-! Windows of a memory whose addresses wrap around. A place in a window is its distance
from the window's base, so that no lemma asks where the window ends. -/
namespace Lxos.Windows
variable {w : Nat} {α : Type} {m : BitVec w → α} {a base src dst : BitVec w} {v : α} {k lo hi n : Nat}

/-- How far `a` lies above `base`. -/
def offset (a base : BitVec w) : Nat := (a - base).toNat

/-- Offsets `lo` up to `hi` from `dst` hold what they held from `src`. -/
def copied (m : BitVec w → α) (src dst : BitVec w) (lo hi : Nat) : BitVec w → α :=
  fun a => if lo ≤ offset a dst ∧ offset a dst < hi then m (src + (a - dst)) else m a

/-- `n` places from `dst` on hold `v`. -/
def filled (m : BitVec w → α) (dst : BitVec w) (v : α) (n : Nat) : BitVec w → α :=
  fun a => if offset a dst < n then v else m a

theorem offset_add (small : k < 2 ^ w) : offset (base + BitVec.ofNat w k) base = k := by
  unfold offset
  rw [add_sub_cancel_left,BitVec.toNat_ofNat,Nat.mod_eq_of_lt small]

theorem offset_eq (small : k < 2 ^ w) : offset a base = k ↔ a = base + BitVec.ofNat w k := by
  constructor
  · rintro rfl
    unfold offset
    rw [BitVec.ofNat_toNat,BitVec.setWidth_eq,add_sub_cancel]
  · rintro rfl
    exact offset_add small

/-- Going up from `src`, an address stays as far above `dst` as it went. -/
theorem offset_above (room : offset src dst + n ≤ 2 ^ w) (low : k < n) :
    offset (src + BitVec.ofNat w k) dst = offset src dst + k := by
  have shift : src + BitVec.ofNat w k - dst = src - dst + BitVec.ofNat w k := by abel
  unfold offset at room ⊢
  rw [shift,BitVec.toNat_add,BitVec.toNat_ofNat,Nat.add_mod_mod,Nat.mod_eq_of_lt (by omega)]

/-- From a `src` below `dst`, an address is nearer to `dst` than to `src` or past all of them. -/
theorem offset_below (room : offset dst src + n ≤ 2 ^ w) (low : k < n) :
    offset (src + BitVec.ofNat w k) dst ≤ k ∨ n ≤ offset (src + BitVec.ofNat w k) dst := by
  have shift : src + BitVec.ofNat w k - dst = BitVec.ofNat w k - (dst - src) := by abel
  have small : (BitVec.ofNat w k).toNat = k := by
    rw [BitVec.toNat_ofNat,Nat.mod_eq_of_lt (by omega)]
  unfold offset at room ⊢
  rw [shift,BitVec.toNat_sub,small]
  generalize (dst - src).toNat = d at room
  rcases Nat.lt_or_ge k d with before | past
  · right
    rw [Nat.mod_eq_of_lt (by omega)]
    omega
  · left
    rw [show 2 ^ w - d + k = k - d + 2 ^ w by omega,Nat.add_mod_right]
    exact le_trans (Nat.mod_le _ _) (Nat.sub_le _ _)

theorem copied_none : copied m src dst k k = m := by
  funext a
  exact if_neg (by omega)

theorem copied_spared (spared : offset a dst < lo ∨ hi ≤ offset a dst) : copied m src dst lo hi a = m a := if_neg (by omega)

/-- One more place next to a window, read where the window has not been written. -/
theorem copied_step {lo' hi' : Nat} (small : k < 2 ^ w)
    (grown : ∀ i, lo' ≤ i ∧ i < hi' ↔ i = k ∨ lo ≤ i ∧ i < hi) :
    Function.update (copied m src dst lo hi) (dst + BitVec.ofNat w k) (m (src + BitVec.ofNat w k)) =
      copied m src dst lo' hi' := by
  funext a
  by_cases here : a = dst + BitVec.ofNat w k
  · have place := (offset_eq small).mpr here
    rw [here,Function.update_self]
    unfold copied
    rw [if_pos ((grown _).mpr (Or.inl (offset_add small))),add_sub_cancel_left]
  · rw [Function.update_of_ne here]
    have other : offset a dst ≠ k := fun same => here ((offset_eq small).mp same)
    unfold copied
    simp only [grown,other,false_or]

theorem filled_none : filled m dst v 0 = m := by
  funext a
  exact if_neg (Nat.not_lt_zero _)

theorem filled_step (small : n < 2 ^ w) :
    Function.update (filled m dst v n) (dst + BitVec.ofNat w n) v = filled m dst v (n+1) := by
  funext a
  by_cases here : a = dst + BitVec.ofNat w n
  · rw [here,Function.update_self]
    unfold filled
    rw [if_pos (by rw [offset_add small]; omega)]
  · rw [Function.update_of_ne here]
    have other : offset a dst ≠ n := fun same => here ((offset_eq small).mp same)
    unfold filled
    simp only [Nat.lt_succ_iff_lt_or_eq,other,or_false]

end Lxos.Windows
