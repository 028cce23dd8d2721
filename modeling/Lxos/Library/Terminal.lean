import Mathlib.Data.List.Basic

/-! A terminal: a grid of cells and a place in it, which never leaves the grid. The last
row scrolls up. -/
namespace Lxos.Terminals

structure Terminal (rows cols : Nat) (α : Type) where
  cell : Nat → Nat → α
  row : Nat
  col : Nat
  row_low : row < rows
  col_low : col < cols

namespace Terminal
variable {rows cols : Nat} {α : Type}

/-- The current cell. -/
def write (t : Terminal rows cols α) (a : α) : Terminal rows cols α :=
  { t with cell := fun r c => if r = t.row ∧ c = t.col then a else t.cell r c }

/-- The start of the next row; a new one is empty. -/
def feed (empty : α) (t : Terminal rows cols α) : Terminal rows cols α :=
  if low : t.row + 1 < rows then
    { t with row := t.row + 1,col := 0,row_low := low,col_low := Nat.zero_lt_of_lt t.col_low }
  else
    { t with
      cell := fun r c => if r + 1 < rows then t.cell (r+1) c else empty
      col := 0
      col_low := Nat.zero_lt_of_lt t.col_low }

/-- The cell after the current one. -/
def advance (empty : α) (t : Terminal rows cols α) : Terminal rows cols α :=
  if low : t.col + 1 < cols then { t with col := t.col + 1,col_low := low } else t.feed empty

/-- The cell before the current one; the first has none. -/
def retreat (t : Terminal rows cols α) : Terminal rows cols α :=
  if 0 < t.col then { t with col := t.col - 1,col_low := Nat.lt_of_le_of_lt (Nat.sub_le _ _) t.col_low }
  else if 0 < t.row then
    { t with
      row := t.row - 1
      col := cols - 1
      row_low := Nat.lt_of_le_of_lt (Nat.sub_le _ _) t.row_low
      col_low := Nat.sub_lt (Nat.zero_lt_of_lt t.col_low) Nat.one_pos }
  else t

/-- Every cell, and the first place. -/
def clear (a : α) (t : Terminal rows cols α) : Terminal rows cols α :=
  ⟨fun _ _ => a,0,0,Nat.zero_lt_of_lt t.row_low,Nat.zero_lt_of_lt t.col_low⟩

/-- The number of the current cell, row by row. -/
def place (t : Terminal rows cols α) : Nat := t.row * cols + t.col

theorem place_low (t : Terminal rows cols α) : t.place < rows * cols :=
  calc t.row * cols + t.col < t.row * cols + cols := Nat.add_lt_add_left t.col_low _
    _ = (t.row + 1) * cols := (Nat.succ_mul _ _).symm
    _ ≤ rows * cols := Nat.mul_le_mul_right cols t.row_low

end Terminal

/-- The states after each event of a list. -/
def states {σ ε : Type} (after : σ → ε → σ) : σ → List ε → List σ
  | _, [] => []
  | s, e :: es => after s e :: states after (after s e) es

theorem states_append {σ ε : Type} (after : σ → ε → σ) (s : σ) (es more : List ε) :
    states after s (es ++ more) = states after s es ++ states after (es.foldl after s) more := by
  induction es generalizing s with
  | nil => rfl
  | cons e es ih =>
    rw [List.cons_append,states,states,ih,List.foldl_cons,List.cons_append]

end Lxos.Terminals
