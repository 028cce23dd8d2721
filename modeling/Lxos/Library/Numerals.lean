import Mathlib.Data.Nat.Digits.Lemmas
import Mathlib.Tactic.Linarith

/-! Numerals in a base, the highest digit first, over any alphabet. The numeral of a
number is its shortest list of digits; with a sign before it it stands for an integer. -/
namespace Lxos.Numerals

/-- The number that digits stand for. -/
def value (b : Nat) (ds : List Nat) : Nat := ds.foldl (fun v d => v * b + d) 0

/-- The digits of a number; zero has one. -/
def numeral (b n : Nat) : List Nat := if n = 0 then [0] else (Nat.digits b n).reverse

section numeral
variable {b n k : Nat} {ds es : List Nat}

theorem value_append (ds : List Nat) (d : Nat) : value b (ds ++ [d]) = value b ds * b + d := by
  unfold value
  rw [List.foldl_append]
  rfl

theorem value_reverse (ds : List Nat) : value b ds.reverse = Nat.ofDigits b ds := by
  induction ds with
  | nil => rfl
  | cons d ds ih =>
    rw [List.reverse_cons,value_append,ih,Nat.ofDigits_cons]
    exact Nat.add_comm _ _ |>.trans (by rw [Nat.mul_comm])

theorem numeral_small (h : n < b) : numeral b n = [n] := by
  unfold numeral
  split
  · rename_i zero
    rw [zero]
  · rename_i positive
    rw [Nat.digits_of_lt b n positive h,List.reverse_singleton]

/-- The last digit is the remainder, the others are those of the quotient. -/
theorem numeral_step (base : 1 < b) (h : b ≤ n) : numeral b n = numeral b (n / b) ++ [n % b] := by
  have quotient : n / b ≠ 0 := (Nat.div_pos h (by omega)).ne'
  unfold numeral
  rw [if_neg (by omega),if_neg quotient,Nat.digits_def' base (by omega),List.reverse_cons]

theorem value_numeral (b n : Nat) : value b (numeral b n) = n := by
  unfold numeral
  split
  · rename_i zero
    subst zero
    simp [value]
  · rw [value_reverse,Nat.ofDigits_digits]

theorem numeral_some (b n : Nat) : numeral b n ≠ [] := by
  unfold numeral
  split
  · exact List.cons_ne_nil _ _
  · rename_i positive
    rw [Ne,List.reverse_eq_nil_iff]
    exact Nat.digits_ne_nil_iff_ne_zero.mpr positive

theorem numeral_below (base : 1 < b) {d : Nat} (inside : d ∈ numeral b n) : d < b := by
  unfold numeral at inside
  split at inside
  · rw [List.mem_singleton.mp inside]
    omega
  · exact Nat.digits_lt_base base (List.mem_reverse.mp inside)

theorem numeral_length (base : 1 < b) (positive : 1 ≤ k) (h : n < b ^ k) : (numeral b n).length ≤ k := by
  unfold numeral
  split
  · exact positive
  · rw [List.length_reverse]
    exact (Nat.digits_length_le_iff base n).mpr h

theorem value_lt (base : 1 < b) (below : ∀ d ∈ ds, d < b) : value b ds < b ^ ds.length := by
  have bound := @Nat.ofDigits_lt_base_pow_length b ds.reverse base fun d inside => below d (List.mem_reverse.mp inside)
  rw [← value_reverse,List.reverse_reverse,List.length_reverse] at bound
  exact bound

/-- No other digits for a number are fewer. -/
theorem numeral_shortest (base : 1 < b) (some_digit : ds ≠ []) (below : ∀ d ∈ ds, d < b) :
    (numeral b (value b ds)).length ≤ ds.length :=
  numeral_length base (List.length_pos_iff.mpr some_digit) (value_lt base below)

/-- A higher base takes fewer digits. -/
theorem numeral_base {c : Nat} (base : 1 < b) (higher : b ≤ c) : (numeral c n).length ≤ (numeral b n).length := by
  refine numeral_length (by omega) (List.length_pos_iff.mpr (numeral_some b n)) ?_
  have bound := @value_lt b (numeral b n) base fun d => numeral_below base
  rw [value_numeral] at bound
  exact lt_of_lt_of_le bound (Nat.pow_le_pow_left higher _)

theorem value_mono {c : Nat} (higher : b ≤ c) (ds : List Nat) : value b ds ≤ value c ds := by
  induction ds using List.reverseRecOn with
  | nil => exact le_refl _
  | append_singleton ds d ih =>
    rw [value_append,value_append]
    exact Nat.add_le_add_right (Nat.mul_le_mul ih higher) d

/-- Two bases have the same numeral for the numbers below the lower one. -/
theorem numeral_same {c : Nat} (base : 1 < b) (higher : b < c) : numeral b n = numeral c n ↔ n < b := by
  constructor
  · intro same
    by_contra large
    rw [Nat.not_lt] at large
    rcases Nat.lt_or_ge n c with small | larger
    · rw [numeral_small small] at same
      exact absurd (@numeral_below b n base n (same ▸ List.mem_singleton_self n)) (Nat.not_lt.mpr large)
    · have positive : 0 < n / c := Nat.div_pos larger (by omega)
      rw [numeral_step base large,numeral_step (by omega) larger] at same
      obtain ⟨front,last⟩ := List.append_inj' same rfl
      have quotient : n / b ≤ n / c := by
        have bound := value_mono (le_of_lt higher) (numeral b (n / b))
        rw [value_numeral,front,value_numeral] at bound
        exact bound
      have remainder : n % b = n % c := List.singleton_inj.mp last
      have whole : b * (n / b) = c * (n / c) := by
        have := Nat.div_add_mod n b
        have := Nat.div_add_mod n c
        omega
      have less : b * (n / b) < c * (n / c) :=
        lt_of_le_of_lt (Nat.mul_le_mul_left b quotient) (Nat.mul_lt_mul_of_pos_right higher positive)
      exact absurd whole less.ne
  · intro small
    rw [numeral_small small,numeral_small (lt_trans small higher)]

end numeral

section text
variable {α : Type} {symbol : Nat → α} {digit : α → Nat} {minus : α} {b : Nat}

/-- An integer as text. -/
def signed (minus : α) (symbol : Nat → α) (b : Nat) (v : Int) : List α :=
  (if v < 0 then [minus] else []) ++ (numeral b v.natAbs).map symbol

/-- The number that a text stands for. -/
def parse [DecidableEq α] (minus : α) (digit : α → Nat) (b : Nat) : List α → Int
  | [] => 0
  | a :: s => if a = minus then -(value b (s.map digit) : Nat) else (value b ((a :: s).map digit) : Nat)

theorem signed_natural (n : Nat) : signed minus symbol b n = (numeral b n).map symbol := by
  unfold signed
  rw [if_neg (by omega)]
  rfl

theorem numeral_back (base : 1 < b) (inverse : ∀ d < b, digit (symbol d) = d) (n : Nat) :
    ((numeral b n).map symbol).map digit = numeral b n := by
  rw [List.map_map]
  exact (List.map_congr_left fun d inside => inverse d (numeral_below base inside)).trans (List.map_id _)

theorem parse_signed [DecidableEq α] (base : 1 < b) (inverse : ∀ d < b, digit (symbol d) = d)
    (plain : ∀ d < b, symbol d ≠ minus) (v : Int) : parse minus digit b (signed minus symbol b v) = v := by
  have back := @numeral_back α symbol digit b base inverse v.natAbs
  have read := value_numeral b v.natAbs
  unfold signed
  split
  · rename_i negative
    change (if minus = minus then -((value b (((numeral b v.natAbs).map symbol).map digit) : Nat) : Int) else _) = v
    rw [if_pos rfl,back,read]
    omega
  · rename_i positive
    rw [List.nil_append]
    have below (d : Nat) (inside : d ∈ numeral b v.natAbs) := numeral_below base inside
    cases digits : numeral b v.natAbs with
    | nil => exact absurd digits (numeral_some b v.natAbs)
    | cons d ds =>
      rw [digits] at back read below
      have first := plain d (below d List.mem_cons_self)
      change (if symbol d = minus then _ else ((value b (((d :: ds).map symbol).map digit) : Nat) : Int)) = v
      rw [if_neg first,back,read]
      omega

end text

end Lxos.Numerals
