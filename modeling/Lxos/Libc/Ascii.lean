import Lxos.Libc.String
import Lxos.Library.Numerals
import Mathlib.Tactic.IntervalCases

/-! Numbers as text: `int_to_ascii` and `hex_to_ascii` of `string.c`. -/
namespace Lxos.Libc
open Lxos.Bytes Lxos.Numerals

def reverseLoop : Nat → Chars → Int → Int → Chars
  | 0, s, _, _ => s
  | fuel+1, s, i, j =>
    if i < j then
      let c := s i
      reverseLoop fuel (Function.update (Function.update s i (s j)) j c) (i+1) (j-1)
    else s

def reverse (s : Chars) : Option Chars := (strlen s).map fun r => reverseLoop r.1 s 0 ((r.1 : Int) - 1)

/-- The digits, the last one first. Ten are enough for an `int`. -/
def digitsLoop : Nat → Int → Chars → Nat → Chars × Nat
  | 0, _, str, i => (str,i)
  | fuel+1, n, str, i =>
    let str := Function.update str i (BitVec.ofInt 8 (n.tmod 10 + 48))
    let n := n.tdiv 10
    if n > 0 then digitsLoop fuel n str (i+1) else (str,i+1)

/-- The sign is remembered, and never written. -/
def int_to_ascii (n : BitVec 32) (str : Chars) : Option Chars :=
  let n := if n.toInt < 0 then -n else n
  let r := digitsLoop 10 n.toInt str 0
  reverse (Function.update r.1 r.2 0)

/-- The character of a digit that is not the last. -/
def hexChar (tmp : Nat) : Byte := if tmp > 10 then BitVec.ofNat 8 (tmp - 10 + 97) else BitVec.ofNat 8 (tmp + 48)

def lastHexChar (tmp : Nat) : Byte := if tmp ≥ 10 then BitVec.ofNat 8 (tmp - 10 + 97) else BitVec.ofNat 8 (tmp + 48)

/-- `i` is four times the number of digits to come before the last. -/
def hexLoop (n : BitVec 32) : Nat → Bool → Chars → Option Chars
  | 0, _, str => some str
  | k+1, zeros, str =>
    let tmp := (n.sshiftRight (4 * (k+1)) &&& 15).toNat
    if tmp = 0 ∧ zeros = false then hexLoop n k zeros str
    else (append str (hexChar tmp)).bind fun r => hexLoop n k true r.1

def hex_to_ascii (n : BitVec 32) (str : Chars) : Option Chars :=
  (append str 48).bind fun r => (append r.1 120).bind fun r => (hexLoop n 7 false r.1).bind fun str =>
    (append str (lastHexChar (n &&& 15).toNat)).map Prod.fst

section text
variable {s : Chars} {cs ds : List Byte}

theorem Text.unique (left : Text s cs) (right : Text s ds) : cs = ds := by
  have shorter {cs ds : List Byte} (left : Text s cs) (right : Text s ds) : ds.length ≤ cs.length := by
    by_contra longer
    exact right.inside (Nat.lt_of_not_le longer) left.stop
  have length : cs.length = ds.length := le_antisymm (shorter right left) (shorter left right)
  apply List.ext_getElem length
  intro i low low'
  have same := (left.byte i (le_of_lt low)).symm.trans (right.byte i (le_of_lt low'))
  rw [List.getD_eq_getElem _ _ low,List.getD_eq_getElem _ _ low'] at same
  exact same

/-- Characters put one after the other from `i` on. -/
def put (s : Chars) (i : Nat) : List Byte → Chars
  | [] => s
  | c :: cs => put (Function.update s i c) (i+1) cs

theorem put_before {i : Nat} {x : Int} (low : x < i) : put s i cs x = s x := by
  induction cs generalizing s i with
  | nil => rfl
  | cons c cs ih =>
    unfold put
    rw [ih (by omega),Function.update_of_ne (by omega)]

theorem put_inside {i k : Nat} (low : k < cs.length) : put s i cs ((i + k : Nat) : Int) = cs.getD k 0 := by
  induction cs generalizing s i k with
  | nil => exact absurd low (Nat.not_lt_zero k)
  | cons c cs ih =>
    unfold put
    cases k with
    | zero =>
      rw [put_before (by omega)]
      exact Function.update_self (i : Int) c s
    | succ k =>
      have next := @ih (Function.update s i c) (i+1) k (Nat.lt_of_succ_lt_succ low)
      rw [show i + (k+1) = i + 1 + k by omega,next]
      rfl

theorem put_text (plain : 0 ∉ cs) : Text (Function.update (put s 0 cs) cs.length 0) cs := by
  refine ⟨fun i low => ?_,plain⟩
  rcases Nat.lt_or_ge i cs.length with inside | past
  · have entry := @put_inside s cs 0 i inside
    rw [Nat.zero_add] at entry
    rw [Function.update_of_ne (by omega),entry]
  · obtain rfl : i = cs.length := by omega
    rw [Function.update_self,List.getD_eq_default _ _ (le_refl _)]

/-- What lies between `i` and `j` is turned round. -/
theorem reverseLoop_spec (fuel : Nat) (s : Chars) (i j : Int) (enough : j - i < fuel) (x : Int) :
    reverseLoop fuel s i j x = if i ≤ x ∧ x ≤ j then s (i + j - x) else s x := by
  induction fuel generalizing s i j with
  | zero =>
    unfold reverseLoop
    rw [if_neg (by omega)]
  | succ fuel ih =>
    unfold reverseLoop
    by_cases more : i < j
    · rw [if_pos more,ih _ (i+1) (j-1) (by omega)]
      rcases eq_or_ne x i with rfl | left
      · rw [if_neg (by omega),if_pos (by omega),Function.update_of_ne (by omega),Function.update_self]
        congr 1
        omega
      rcases eq_or_ne x j with rfl | right
      · rw [if_neg (by omega),if_pos (by omega),Function.update_self]
        congr 1
        omega
      by_cases inside : i + 1 ≤ x ∧ x ≤ j - 1
      · rw [if_pos inside,if_pos (by omega),Function.update_of_ne (by omega),Function.update_of_ne (by omega)]
        congr 1
        omega
      · rw [if_neg inside,if_neg (by omega),Function.update_of_ne right,Function.update_of_ne left]
    · rw [if_neg more]
      split
      · congr 1
        omega
      · rfl

theorem reverse_spec (text : Text s cs) (short : cs.length < 2147483648) :
    ∃ s', reverse s = some s' ∧ Text s' cs.reverse := by
  obtain ⟨used,length,_⟩ := strlen_spec text short
  refine ⟨_,by unfold reverse; rw [length]; rfl,fun i low => ?_,fun zero => text.plain (List.mem_reverse.mp zero)⟩
  rw [List.length_reverse] at low
  dsimp only
  rw [reverseLoop_spec _ _ _ _ (by omega)]
  rcases Nat.lt_or_ge i cs.length with inside | past
  · have place : (0 : Int) + ((cs.length : Int) - 1) - i = ((cs.length - 1 - i : Nat) : Int) := by omega
    rw [if_pos (by omega),place,text.byte _ (by omega),List.getD_eq_getElem _ _ (by omega),
      List.getD_eq_getElem _ _ (by rw [List.length_reverse]; exact inside),List.getElem_reverse]
  · obtain rfl : i = cs.length := by omega
    rw [if_neg (by omega),text.stop,List.getD_eq_default _ _ (by rw [List.length_reverse])]

end text

section decimal
variable {s : Chars} {cs : List Byte}

def decimalChar (d : Nat) : Byte := BitVec.ofNat 8 (48 + d)

abbrev minus : Byte := 45

theorem decimalChar_back (d : Nat) (h : d < 10) : (decimalChar d).toNat - 48 = d := by
  unfold decimalChar
  rw [BitVec.toNat_ofNat]
  omega

theorem decimalChar_plain (d : Nat) (h : d < 10) : decimalChar d ≠ minus := by
  intro same
  have := congrArg BitVec.toNat same
  rw [decimalChar,BitVec.toNat_ofNat] at this
  change _ = 45 at this
  omega

theorem decimal_plain (n : Nat) : 0 ∉ (numeral 10 n).map decimalChar := by
  intro zero
  obtain ⟨d,inside,same⟩ := List.mem_map.mp zero
  have below := numeral_below (by decide) inside
  have back := decimalChar_back d below
  rw [same] at back
  have := congrArg BitVec.toNat same
  rw [decimalChar,BitVec.toNat_ofNat] at this
  change _ = 0 at this
  omega

theorem digitsLoop_spec (fuel m i : Nat) (s : Chars) (positive : 1 ≤ fuel) (enough : m < 10 ^ fuel) :
    digitsLoop fuel m s i = (put s i ((numeral 10 m).reverse.map decimalChar),i + (numeral 10 m).length) := by
  induction fuel generalizing m s i with
  | zero => omega
  | succ fuel ih =>
    have digit : (BitVec.ofInt 8 ((m : Int).tmod 10 + 48)) = decimalChar (m % 10) := by
      have remainder : (m : Int).tmod 10 = ((m % 10 : Nat) : Int) := rfl
      rw [remainder,decimalChar,Nat.add_comm]
      exact BitVec.ofInt_natCast 8 (m % 10 + 48)
    have quotient : (m : Int).tdiv 10 = ((m / 10 : Nat) : Int) := rfl
    unfold digitsLoop
    rw [digit,quotient]
    rcases Nat.lt_or_ge m 10 with small | large
    · have zero : m / 10 = 0 := by omega
      rw [if_neg (by omega),numeral_small small,Nat.mod_eq_of_lt small]
      rfl
    · have power : m / 10 < 10 ^ fuel := by
        rw [Nat.pow_succ] at enough
        omega
      have some_fuel : 1 ≤ fuel := by
        rcases Nat.eq_zero_or_pos fuel with rfl | more
        · rw [Nat.pow_zero] at power
          omega
        · exact more
      rw [if_pos (by omega),ih (m / 10) (i+1) _ some_fuel power,numeral_step (by decide) large,List.reverse_append,List.length_append]
      refine Prod.ext rfl ?_
      change i + 1 + _ = i + (_ + 1)
      omega

theorem decimal_length {m : Nat} (h : m < 2147483648) : (numeral 10 m).length ≤ 10 :=
  numeral_length (by decide) (by decide) (lt_trans h (by decide))

theorem int_to_ascii_positive {m : Nat} (h : m < 2147483648) (s : Chars) :
    ∃ s', reverse (Function.update (digitsLoop 10 m s 0).1 (digitsLoop 10 m s 0).2 0) = some s' ∧
      Text s' ((numeral 10 m).map decimalChar) := by
  have plain : 0 ∉ (numeral 10 m).reverse.map decimalChar := by
    rw [List.map_reverse]
    exact fun zero => decimal_plain m (List.mem_reverse.mp zero)
  have text := @put_text s _ plain
  rw [List.length_map,List.length_reverse] at text
  have length := decimal_length h
  obtain ⟨s',turned,result⟩ := reverse_spec text (by rw [List.length_map,List.length_reverse]; omega)
  rw [digitsLoop_spec 10 m 0 s (by decide) (by omega)]
  rw [List.map_reverse,List.reverse_reverse] at result
  refine ⟨s',?_,result⟩
  rw [Nat.zero_add]
  exact turned

/-- The text is the decimal numeral of the number, with its sign. -/
def Decimal (n : BitVec 32) (str : Chars) : Prop := ∃ str' cs, int_to_ascii n str = some str' ∧ Text str' cs ∧
  cs = signed minus decimalChar 10 n.toInt ∧ parse minus (fun c => c.toNat - 48) 10 cs = n.toInt

theorem decimal_parse (v : Int) :
    parse minus (fun c : Byte => c.toNat - 48) 10 (signed minus decimalChar 10 v) = v :=
  parse_signed (by decide) decimalChar_back decimalChar_plain v

/-- No sign is written. -/
theorem int_to_ascii_first {n : BitVec 32} {str str' : Chars} (negative : n.toInt < 0)
    (ok : int_to_ascii n str = some str') {cs : List Byte} (text : Text str' cs) : cs.head? ≠ some minus := by
  unfold int_to_ascii at ok
  rw [if_pos negative] at ok
  rcases eq_or_ne n (BitVec.intMin 32) with rfl | other
  · have lowest : digitsLoop 10 (-BitVec.intMin 32).toInt str 0 = (put str 0 [40],1) := by
      have value : (-BitVec.intMin 32).toInt = -2147483648 := by decide
      rw [value]
      rfl
    dsimp only at ok
    rw [lowest] at ok
    obtain ⟨s',turned,result⟩ := reverse_spec (@put_text str [40] (by decide)) (by decide)
    have same : s' = str' := Option.some.inj (turned.symm.trans ok)
    rw [text.unique (same ▸ result)]
    decide
  · obtain ⟨m,value⟩ : ∃ m : Nat, (-n).toInt = m := ⟨(-n.toInt).toNat,by
      rw [BitVec.toInt_neg_of_ne_intMin other]
      omega⟩
    have small : m < 2147483648 := by
      have bound : (-n).toInt < 2147483648 := BitVec.toInt_lt
      omega
    obtain ⟨s',turned,result⟩ := int_to_ascii_positive small str
    dsimp only at ok
    rw [value] at ok
    have same : s' = str' := Option.some.inj (turned.symm.trans ok)
    rw [text.unique (same ▸ result)]
    cases digits : numeral 10 m with
    | nil => exact absurd digits (numeral_some 10 m)
    | cons d ds =>
      have below : d < 10 := numeral_below (by decide) (digits ▸ List.mem_cons_self)
      exact fun same => decimalChar_plain d below (Option.some.inj same)

theorem int_to_ascii_decimal (n : BitVec 32) (str : Chars) : Decimal n str ↔ 0 ≤ n.toInt := by
  constructor
  · rintro ⟨str',cs,ok,text,written,_⟩
    by_contra negative
    refine int_to_ascii_first (by omega) ok text ?_
    rw [written,signed,if_pos (by omega)]
    rfl
  · intro positive
    obtain ⟨m,value⟩ : ∃ m : Nat, n.toInt = m := ⟨n.toInt.toNat,by omega⟩
    have small : m < 2147483648 := by
      have bound : n.toInt < 2147483648 := BitVec.toInt_lt
      omega
    obtain ⟨str',turned,text⟩ := int_to_ascii_positive small str
    have whole : (numeral 10 m).map decimalChar = signed minus decimalChar 10 n.toInt := by
      rw [value,signed,if_neg (by omega)]
      rfl
    rw [whole] at text
    refine ⟨str',_,?_,text,rfl,decimal_parse _⟩
    unfold int_to_ascii
    rw [if_neg (by omega)]
    dsimp only
    rw [value]
    exact turned

/-- Minus five comes out as five. -/
theorem int_to_ascii_unsigned : ¬∀ n str, Decimal n str := fun all =>
  absurd ((int_to_ascii_decimal (-5) fun _ => 0).mp (all _ _)) (by decide)

end decimal

section hexadecimal
variable {n : BitVec 32} {s : Chars} {cs : List Byte}

/-- The lower-case digit. -/
def lowerChar (d : Nat) : Byte := BitVec.ofNat 8 (if d < 10 then 48 + d else 87 + d)

theorem sshiftRight_nibble (n : BitVec 32) {k : Nat} (h : k ≤ 7) :
    (n.sshiftRight (4 * k) &&& 15).toNat = n.toNat / 16 ^ k % 16 := by
  have mask (x : BitVec 32) : (x &&& 15).toNat = x.toNat % 16 := by
    rw [BitVec.toNat_and]
    exact Nat.and_two_pow_sub_one_eq_mod x.toNat 4
  rw [mask]
  have bound := n.isLt
  cases msb : n.msb with
  | false =>
    rw [BitVec.sshiftRight_eq_of_msb_false msb,BitVec.toNat_ushiftRight,Nat.shiftRight_eq_div_pow,pow_mul]
    rfl
  | true =>
    rw [BitVec.sshiftRight_eq_of_msb_true msb,BitVec.toNat_not,BitVec.toNat_ushiftRight,BitVec.toNat_not,
      Nat.shiftRight_eq_div_pow,pow_mul]
    change (4294967296 - 1 - (4294967296 - 1 - n.toNat) / 16 ^ k) % 16 = _
    interval_cases k
    all_goals omega

theorem hexChar_plain (d : Nat) (h : d < 16) : hexChar d ≠ 0 := by
  intro zero
  have := congrArg BitVec.toNat zero
  unfold hexChar at this
  split at this
  all_goals
    rw [BitVec.toNat_ofNat] at this
    change _ = 0 at this
    omega

/-- The only digit that a place other than the last shows wrong. -/
theorem hexChar_lower {d : Nat} (h : d < 16) : hexChar d = lowerChar d ↔ d ≠ 10 := by
  revert h d
  decide

theorem lastHexChar_lower {d : Nat} (h : d < 16) : lastHexChar d = lowerChar d := by
  revert h d
  decide

theorem lowerChar_plain (d : Nat) (h : d < 16) : lowerChar d ≠ 0 := by
  revert h d
  decide

/-- The digits before the last, as they are shown. -/
def shown (m : Nat) : List Byte := if m = 0 then [] else (numeral 16 m).map hexChar

theorem shown_step {m d : Nat} (digit : d < 16) : shown (16 * m + d) =
    if d = 0 ∧ m = 0 then [] else shown m ++ [hexChar d] := by
  unfold shown
  split
  · rename_i zero
    rw [if_pos (by omega)]
  · rename_i some_digit
    rw [if_neg (by omega)]
    rcases Nat.eq_zero_or_pos m with rfl | positive
    · rw [if_pos rfl,Nat.mul_zero,Nat.zero_add,numeral_small digit]
      rfl
    · have quotient : (16 * m + d) / 16 = m := by omega
      have remainder : (16 * m + d) % 16 = d := by omega
      rw [if_neg (by omega),numeral_step (by decide) (by omega),quotient,remainder,List.map_append]
      rfl

theorem shown_length {m : Nat} (h : m < 16 ^ 7) : (shown m).length ≤ 7 := by
  unfold shown
  split
  · decide
  · rw [List.length_map]
    exact numeral_length (by decide) (by decide) h

theorem quotient_small (n : BitVec 32) (k : Nat) : n.toNat / 16 ^ (k+1) < 16 ^ 7 := by
  have bound : n.toNat < 16 ^ 1 * 16 ^ 7 := n.isLt
  apply Nat.div_lt_of_lt_mul
  exact lt_of_lt_of_le bound (Nat.mul_le_mul_right _ (Nat.pow_le_pow_right (by decide) (by omega)))

theorem hexLoop_spec (k : Nat) (places : k ≤ 7) {s : Chars} (text : Text s (cs ++ shown (n.toNat / 16 ^ (k+1))))
    (room : cs.length + 8 < 2147483648) : ∃ s', hexLoop n k (decide (n.toNat / 16 ^ (k+1) ≠ 0)) s = some s' ∧
      Text s' (cs ++ shown (n.toNat / 16)) := by
  induction k generalizing s with
  | zero =>
    rw [Nat.zero_add,pow_one] at text
    exact ⟨s,rfl,text⟩
  | succ k ih =>
    have nibble := sshiftRight_nibble n places
    have split : n.toNat / 16 ^ (k+1) = 16 * (n.toNat / 16 ^ (k+1+1)) + n.toNat / 16 ^ (k+1) % 16 := by
      rw [pow_succ 16 (k+1),← Nat.div_div_eq_div_mul]
      omega
    have digit : n.toNat / 16 ^ (k+1) % 16 < 16 := Nat.mod_lt _ (by decide)
    have step := @shown_step (n.toNat / 16 ^ (k+1+1)) _ digit
    rw [← split] at step
    unfold hexLoop
    rw [nibble]
    dsimp only
    by_cases skipped : n.toNat / 16 ^ (k+1) % 16 = 0 ∧ n.toNat / 16 ^ (k+1+1) = 0
    · rw [if_pos skipped] at step
      have nothing : n.toNat / 16 ^ (k+1) = 0 := by omega
      have flag : decide (n.toNat / 16 ^ (k+1+1) ≠ 0) = false := decide_eq_false (not_not.mpr skipped.2)
      have flag' : decide (n.toNat / 16 ^ (k+1) ≠ 0) = false := decide_eq_false (not_not.mpr nothing)
      have before : shown (n.toNat / 16 ^ (k+1+1)) = [] := if_pos skipped.2
      rw [if_pos ⟨skipped.1,flag⟩]
      have rest := @ih (by omega) s (by rw [step,← before]; exact text)
      rw [flag'] at rest
      rw [flag]
      exact rest
    · rw [if_neg skipped] at step
      have taken : ¬(n.toNat / 16 ^ (k+1) % 16 = 0 ∧ decide (n.toNat / 16 ^ (k+1+1) ≠ 0) = false) := fun both =>
        skipped ⟨both.1,not_not.mp (of_decide_eq_false both.2)⟩
      have flag' : decide (n.toNat / 16 ^ (k+1) ≠ 0) = true := decide_eq_true (by omega)
      have few : (shown (n.toNat / 16 ^ (k+1+1))).length ≤ 7 := shown_length (quotient_small n (k+1))
      obtain ⟨used,entered,_⟩ := append_spec text (by rw [List.length_append]; omega) (hexChar (n.toNat / 16 ^ (k+1) % 16))
      have longer := text.append (hexChar_plain _ digit)
      rw [List.append_assoc,← step] at longer
      rw [if_neg taken,entered]
      have rest := ih (by omega) longer
      rw [flag'] at rest
      exact rest

/-- What is appended: every digit as the place of it shows it. -/
def hexText (m : Nat) : List Byte := [48,120] ++ shown (m / 16) ++ [lastHexChar (m % 16)]

theorem hex_to_ascii_spec (text : Text s cs) (room : cs.length + 11 < 2147483648) :
    ∃ s', hex_to_ascii n s = some s' ∧ Text s' (cs ++ hexText n.toNat) := by
  have top : n.toNat / 16 ^ (7+1) = 0 := Nat.div_eq_of_lt n.isLt
  obtain ⟨used0,first,_⟩ := append_spec text (by omega) 48
  have text1 := text.append (by decide : (48 : Byte) ≠ 0)
  obtain ⟨used1,second,_⟩ := append_spec text1 (by rw [List.length_append,List.length_singleton]; omega) 120
  have text2 := text1.append (by decide : (120 : Byte) ≠ 0)
  have start : (cs ++ [48] ++ [120]).length = cs.length + 2 := by
    rw [List.length_append,List.length_append]
    rfl
  have none_yet : shown (n.toNat / 16 ^ (7+1)) = [] := if_pos top
  have begun : Text (Function.update (Function.update (Function.update (Function.update s cs.length 48) (cs.length + 1) 0)
      (cs ++ [48]).length 120) ((cs ++ [48]).length + 1) 0) (cs ++ [48] ++ [120] ++ shown (n.toNat / 16 ^ (7+1))) := by
    rw [none_yet,List.append_nil]
    exact text2
  obtain ⟨s3,loop,text3⟩ := hexLoop_spec 7 (le_refl 7) begun (by omega)
  have flag : decide (n.toNat / 16 ^ (7+1) ≠ 0) = false := decide_eq_false (not_not.mpr top)
  rw [flag] at loop
  have few : (shown (n.toNat / 16)).length ≤ 7 := shown_length (quotient_small n 0)
  have last : (n &&& 15).toNat = n.toNat % 16 := by
    rw [BitVec.toNat_and]
    exact Nat.and_two_pow_sub_one_eq_mod n.toNat 4
  have digit : n.toNat % 16 < 16 := Nat.mod_lt _ (by decide)
  obtain ⟨used4,done,_⟩ := append_spec text3 (by rw [List.length_append,start]; omega) (lastHexChar (n.toNat % 16))
  have visible : lastHexChar (n.toNat % 16) ≠ 0 := by
    rw [lastHexChar_lower digit]
    exact lowerChar_plain _ digit
  have text4 := text3.append visible
  have result : hex_to_ascii n s = (append s3 (lastHexChar (n.toNat % 16))).map Prod.fst := by
    unfold hex_to_ascii
    rw [first]
    dsimp only [Option.bind_some]
    rw [second]
    dsimp only [Option.bind_some]
    rw [loop,last]
    rfl
  rw [done] at result
  have whole : cs ++ [48] ++ [120] ++ shown (n.toNat / 16) ++ [lastHexChar (n.toNat % 16)] = cs ++ hexText n.toNat := by
    unfold hexText
    simp only [List.append_assoc]
    rfl
  rw [whole] at text4
  exact ⟨_,result,text4⟩

theorem shown_lower {m : Nat} : shown m = (if m = 0 then [] else (numeral 16 m).map lowerChar) ↔
    m ≠ 0 → 10 ∉ numeral 16 m := by
  unfold shown
  split
  · rename_i zero
    exact iff_of_true rfl fun some_digit => absurd zero some_digit
  · rename_i some_digit
    constructor
    · intro same _ ten
      have each := List.map_inj_left.mp same
      exact (hexChar_lower (by decide)).mp (each 10 ten) rfl
    · intro none_ten
      refine List.map_congr_left fun d inside => ?_
      exact (hexChar_lower (numeral_below (by decide) inside)).mpr fun ten => none_ten some_digit (ten ▸ inside)

/-- The value of a lower-case digit. -/
def lowerDigit (c : Byte) : Nat := if c.toNat < 97 then c.toNat - 48 else c.toNat - 87

theorem lowerDigit_back {d : Nat} (h : d < 16) : lowerDigit (lowerChar d) = d := by
  revert h d
  decide

/-- `0x` and the shortest numeral follow the string, and the numeral can be read back. -/
def Hexadecimal (n : BitVec 32) (s : Chars) (cs : List Byte) : Prop :=
  ∃ s' out, hex_to_ascii n s = some s' ∧ Text s' (cs ++ [48,120] ++ out) ∧
    out = (numeral 16 n.toNat).map lowerChar ∧ value 16 (out.map lowerDigit) = n.toNat

theorem hexText_lower (m : Nat) : hexText m = [48,120] ++ (numeral 16 m).map lowerChar ↔
    10 ∉ (numeral 16 m).dropLast := by
  have digit : m % 16 < 16 := Nat.mod_lt _ (by decide)
  have last := lastHexChar_lower digit
  unfold hexText
  rw [List.append_assoc,List.append_right_inj,last]
  rcases Nat.lt_or_ge m 16 with small | large
  · have zero : m / 16 = 0 := Nat.div_eq_of_lt small
    rw [numeral_small small,zero,Nat.mod_eq_of_lt small]
    exact iff_of_true rfl List.not_mem_nil
  · have some_digit : m / 16 ≠ 0 := by omega
    rw [numeral_step (by decide) large,List.map_append,List.map_singleton,List.append_left_inj,List.dropLast_concat]
    have split := @shown_lower (m / 16)
    rw [if_neg some_digit] at split
    rw [split]
    exact ⟨fun none_ten => none_ten some_digit,fun none_ten _ => none_ten⟩

/-- A digit ten comes out right in the last place only. -/
theorem hex_to_ascii_hexadecimal (text : Text s cs) (room : cs.length + 11 < 2147483648) :
    Hexadecimal n s cs ↔ 10 ∉ (numeral 16 n.toNat).dropLast := by
  obtain ⟨s',ok,written⟩ := hex_to_ascii_spec (n := n) text room
  rw [← hexText_lower]
  constructor
  · rintro ⟨s'',out,ok',right,rfl,_⟩
    obtain rfl := Option.some.inj (ok.symm.trans ok')
    have same := written.unique right
    rw [List.append_assoc] at same
    exact (List.append_right_inj cs).mp same
  · intro right
    rw [right,← List.append_assoc] at written
    refine ⟨s',_,ok,written,rfl,?_⟩
    rw [numeral_back (by decide) (fun d below => lowerDigit_back below),value_numeral]

/-- The number 160. -/
theorem hex_to_ascii_colon : ¬∀ n s cs, Text s cs → cs.length + 11 < 2147483648 → Hexadecimal n s cs := by
  intro all
  have text : Text (fun _ => 0) [] := ⟨fun i low => (by rfl),List.not_mem_nil⟩
  exact (hex_to_ascii_hexadecimal (n := 160) text (by decide)).mp (all 160 _ [] text (by decide)) (by decide)

/-- The number 26 after an empty string. -/
theorem hex_to_ascii_hexadecimal_26 : Text (fun _ => 0) [] ∧ Hexadecimal 26 (fun _ => 0) [] := by
  have text : Text (fun _ => 0) [] := ⟨fun i low => (by rfl),List.not_mem_nil⟩
  exact ⟨text,(hex_to_ascii_hexadecimal (n := 26) text (by decide)).mpr (by decide)⟩

end hexadecimal

end Lxos.Libc
