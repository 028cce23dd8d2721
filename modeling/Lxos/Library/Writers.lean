import Mathlib.Data.List.Basic

/-! Writes to a memory one after the other. Where they overlap the last one counts. -/
namespace Lxos.Writers
variable {α β τ : Type}

/-- What the last of the writes to an address writes there. -/
def last (write : τ → α → Option β) (a : α) : List τ → Option β
  | [] => none
  | t :: ts => (last write a ts).or (write t a)

end Lxos.Writers
