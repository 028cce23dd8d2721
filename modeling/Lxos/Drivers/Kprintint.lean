import Lxos.Libc.Ascii

/-! `kprintint` of `screen.c`: the digits are put in a buffer, the last one first, and
printed from its end. -/
namespace Lxos.Drivers
open Lxos.Bytes Lxos.Numerals Lxos.Libc

/-- The do-while loop over the digits. Thirty-two rounds are enough in any base. -/
def digitLoop (digits : Nat → Byte) (base : Nat) : Nat → Nat → List Byte → List Byte
  | 0, _, buf => buf
  | fuel+1, x, buf =>
    let buf := buf ++ [digits (x % base)]
    let x := x / base
    if x ≠ 0 then digitLoop digits base fuel x buf else buf

/-- `digits` of `screen.c`. -/
def kernelDigits (d : Nat) : Byte :=
  ([48,49,50,51,52,53,54,55,56,57,97,98,99,100,101,102] : List Byte).getD d 0

/-- `buf` when it is printed. -/
def kprintintBuf (xx : BitVec 32) (base : Nat) (sign : Bool) : List Byte :=
  let sign := sign && decide (xx.toInt < 0)
  let x := if sign then -xx else xx
  let buf := digitLoop kernelDigits base 32 x.toNat []
  if sign then buf ++ [minus] else buf

def kprintint (xx : BitVec 32) (base : Nat) (sign : Bool) : List Byte := (kprintintBuf xx base sign).reverse

/-- The number that is meant: with the flag set, the signed one. -/
def meant (xx : BitVec 32) (sign : Bool) : Int := if sign then xx.toInt else xx.toNat

section digits
variable {digits : Nat → Byte} {base x fuel : Nat} {buf : List Byte} {xx : BitVec 32} {sign : Bool}

theorem digitLoop_spec (two : 1 < base) (positive : 1 ≤ fuel) (enough : x < base ^ fuel) :
    digitLoop digits base fuel x buf = buf ++ ((numeral base x).map digits).reverse := by
  induction fuel generalizing x buf with
  | zero => omega
  | succ fuel ih =>
    unfold digitLoop
    rcases Nat.lt_or_ge x base with small | large
    · have zero : x / base = 0 := Nat.div_eq_of_lt small
      rw [if_neg (not_not.mpr zero),numeral_small small,Nat.mod_eq_of_lt small]
      rfl
    · have quotient : x / base ≠ 0 := (Nat.div_pos large (by omega)).ne'
      have power : x / base < base ^ fuel := Nat.div_lt_of_lt_mul (by rw [Nat.mul_comm,← Nat.pow_succ]; exact enough)
      have some_fuel : 1 ≤ fuel := by
        rcases Nat.eq_zero_or_pos fuel with rfl | more
        · rw [Nat.pow_zero] at power
          exact absurd (Nat.lt_one_iff.mp power) quotient
        · exact more
      rw [if_pos quotient,ih some_fuel power,numeral_step two large,List.map_append,List.map_singleton,
        List.reverse_append,List.append_assoc]
      rfl

/-- The number without its sign, which wraps around for the lowest. -/
theorem magnitude (xx : BitVec 32) (sign : Bool) :
    (if sign && decide (xx.toInt < 0) then -xx else xx).toNat = (meant xx sign).natAbs ∧
      ((sign && decide (xx.toInt < 0)) = true ↔ meant xx sign < 0) := by
  have bound := xx.isLt
  have int := BitVec.toInt_eq_toNat_cond xx
  unfold meant
  cases sign with
  | false =>
    refine ⟨?_,?_⟩
    · rfl
    · rw [Bool.false_and]
      exact iff_of_false Bool.false_ne_true (by
        rw [if_neg Bool.false_ne_true]
        omega)
  | true =>
    simp only [Bool.true_and,if_true,decide_eq_true_iff]
    refine ⟨?_,trivial⟩
    split
    · rename_i negative
      rw [BitVec.toNat_neg]
      split at int
      · omega
      · omega
    · rename_i positive
      split at int
      · omega
      · omega

theorem meant_small (xx : BitVec 32) (sign : Bool) : (meant xx sign).natAbs < 4294967296 := by
  rw [← (magnitude xx sign).1]
  exact BitVec.isLt _

theorem digitLoop_signed (two : 1 < base) (xx : BitVec 32) (sign : Bool) :
    (if sign && decide (xx.toInt < 0) then digitLoop digits base 32 (-xx).toNat [] ++ [minus]
      else digitLoop digits base 32 xx.toNat []) = (signed minus digits base (meant xx sign)).reverse := by
  obtain ⟨size,negative⟩ := magnitude xx sign
  have enough : (meant xx sign).natAbs < base ^ 32 :=
    lt_of_lt_of_le (meant_small xx sign) (Nat.pow_le_pow_left two 32)
  have loop := @digitLoop_spec digits base _ 32 [] two (by decide) enough
  rw [List.nil_append] at loop
  rw [signed,List.reverse_append,← loop]
  split
  · rename_i here
    rw [if_pos here] at size
    rw [if_pos (negative.mp here),size]
    rfl
  · rename_i here
    rw [if_neg here] at size
    rw [if_neg (fun below => here (negative.mpr below)),size]
    exact (List.append_nil _).symm

theorem kprintintBuf_eq (two : 1 < base) : kprintintBuf xx base sign =
    (signed minus kernelDigits base (meant xx sign)).reverse := by
  rw [← digitLoop_signed two]
  unfold kprintintBuf
  dsimp only
  split
  · rfl
  · rfl

theorem kprintint_eq (two : 1 < base) : kprintint xx base sign = signed minus kernelDigits base (meant xx sign) := by
  unfold kprintint
  rw [kprintintBuf_eq two,List.reverse_reverse]

/-- The text is never longer than eleven characters. -/
theorem signed_length (ten : 10 ≤ base) (xx : BitVec 32) (sign : Bool) :
    (signed minus digits base (meant xx sign)).length ≤ 11 := by
  have few : (numeral base (meant xx sign).natAbs).length ≤ 10 := by
    refine numeral_length (by omega) (by decide) (lt_of_lt_of_le (meant_small xx sign) ?_)
    exact le_trans (by decide) (Nat.pow_le_pow_left ten 10)
  unfold signed
  rw [List.length_append,List.length_map]
  split
  · rw [List.length_singleton]
    omega
  · rw [List.length_nil]
    omega

end digits

end Lxos.Drivers
