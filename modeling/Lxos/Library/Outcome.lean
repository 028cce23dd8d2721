import Mathlib.Init

/-! Specifications of computations that may fail: what a result satisfies, and
which failures are allowed. The rules follow the shape of sequential code. -/
namespace Lxos.Outcome
variable {ε α : Type} {allowed : ε → Prop} {r : Except ε α} {post post' : α → Prop}

def Meets (allowed : ε → Prop) (r : Except ε α) (post : α → Prop) : Prop :=
  match r with
  | .ok a => post a
  | .error e => allowed e

theorem Meets.ok {a : α} (h : post a) : Meets allowed (.ok a) post := h

theorem Meets.error {e : ε} (h : allowed e) : Meets allowed (.error e) post := h

theorem Meets.elim (meets : Meets allowed r post) {a : α} (ok : r = .ok a) : post a := by
  rw [ok] at meets
  exact meets

theorem Meets.mono (meets : Meets allowed r post) (weaken : ∀ a, post a → post' a) : Meets allowed r post' := by
  cases r with
  | ok a => exact weaken a meets
  | error e => exact meets

theorem Meets.and {any : ε → Prop} (left : Meets allowed r post) (right : Meets any r post') :
    Meets allowed r fun a => post a ∧ post' a := by
  cases r with
  | ok a => exact ⟨left,right⟩
  | error e => exact left

/-- Either a failure to pass on, or a result to use. -/
theorem Meets.cases (meets : Meets allowed r post) :
    (∃ e, r = .error e ∧ allowed e) ∨ ∃ a, r = .ok a ∧ post a := by
  cases r with
  | ok a => exact Or.inr ⟨a,rfl,meets⟩
  | error e => exact Or.inl ⟨e,rfl,meets⟩

end Lxos.Outcome
