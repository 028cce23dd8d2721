import Mathlib.Logic.Function.Basic
import Mathlib.Algebra.Notation.Defs

/-! Exclusive ownership. Positions hold resources, `0` stands for none; a
resource is claimed for an empty position or released. Positions and resources
are of any type. -/
namespace Lxos.Ownership
variable {ι β : Type} [Zero β]

/-- No resource is held at two positions. -/
def Exclusive (ref : ι → β) : Prop := ∀ i j, ref i ≠ 0 → ref i = ref j → i = j

/-- Every used resource is reserved or held. -/
def Exact (used reserved : β → Prop) (ref : ι → β) : Prop :=
  ∀ b, used b → reserved b ∨ ∃ i, ref i = b

variable [DecidableEq ι]

theorem Exclusive.claim {ref : ι → β} (exclusive : Exclusive ref) (i : ι) (b : β)
    (fresh : ∀ j, ref j ≠ b) : Exclusive (Function.update ref i b) := by
  intro j l nonzero equal
  by_cases left : j = i
  · by_cases right : l = i
    · rw [left,right]
    · rw [left,Function.update_self,Function.update_of_ne right] at equal
      exact absurd equal.symm (fresh l)
  · rw [Function.update_of_ne left] at nonzero equal
    by_cases right : l = i
    · rw [right,Function.update_self] at equal
      exact absurd equal (fresh j)
    · rw [Function.update_of_ne right] at equal
      exact exclusive j l nonzero equal

omit [DecidableEq ι] in
theorem Exclusive.shrink {ref ref' : ι → β} (exclusive : Exclusive ref)
    (sub : ∀ i, ref' i ≠ 0 → ref' i = ref i) : Exclusive ref' := by
  intro i j nonzero equal
  have hi := sub i nonzero
  have hj := sub j (equal ▸ nonzero)
  exact exclusive i j (hi ▸ nonzero) (hi.symm.trans (equal.trans hj))

end Lxos.Ownership
