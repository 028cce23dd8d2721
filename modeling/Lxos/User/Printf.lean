import Lxos.Drivers.Kprintf

/-! `printf` of the user library: the format is read by an index, and a state remembers
a `%`. What is printed is what `putc` writes to the file. -/
namespace Lxos.User
open Lxos.Bytes Lxos.Numerals Lxos.Libc Lxos.Drivers

/-- `digits` of `printf.c`. -/
def userDigits (d : Nat) : Byte :=
  ([48,49,50,51,52,53,54,55,56,57,65,66,67,68,69,70] : List Byte).getD d 0

/-- `buf` when it is printed. -/
def printintBuf (xx : BitVec 32) (base : Nat) (sgn : Bool) : List Byte :=
  let r : Bool × BitVec 32 := if sgn = true ∧ xx.toInt < 0 then (true,-xx) else (false,xx)
  let buf := digitLoop userDigits base 32 r.2.toNat []
  if r.1 then buf ++ [minus] else buf

def printint (xx : BitVec 32) (base : Nat) (sgn : Bool) : List Byte := (printintBuf xx base sgn).reverse

section integers
variable {digits : Nat → Byte} {base : Nat} {xx : BitVec 32} {sgn : Bool} {buf : List Byte}

theorem printintBuf_eq (two : 1 < base) : printintBuf xx base sgn =
    (signed minus userDigits base (meant xx sgn)).reverse := by
  rw [← digitLoop_signed two]
  unfold printintBuf
  dsimp only
  have same : (sgn && decide (xx.toInt < 0)) = true ↔ sgn = true ∧ xx.toInt < 0 := by
    rw [Bool.and_eq_true,decide_eq_true_iff]
  by_cases negative : sgn = true ∧ xx.toInt < 0
  · rw [if_pos negative,if_pos (same.mpr negative)]
    rfl
  · rw [if_neg negative,if_neg (fun both => negative (same.mp both))]
    rfl

theorem printint_eq (two : 1 < base) : printint xx base sgn = signed minus userDigits base (meant xx sgn) := by
  unfold printint
  rw [printintBuf_eq two,List.reverse_reverse]

/-- The value of a digit, a letter of either case being one above nine. -/
def digitOf (c : Byte) : Nat :=
  if c.toNat < 65 then c.toNat - 48 else if c.toNat < 97 then c.toNat - 55 else c.toNat - 87

/-- The characters in `buf`, printed from the end, are the shortest numeral of what is
meant; a reader gets the number back, and the index into `buf` stays in range. -/
structure Printed (digits : Nat → Byte) (xx : BitVec 32) (base : Nat) (sign : Bool) (buf out : List Byte) : Prop where
  printed : out = buf.reverse
  numeral : out = signed minus digits base (meant xx sign)
  first : out.head? = some minus ↔ sign = true ∧ xx.toInt < 0
  read : parse minus digitOf base out = meant xx sign
  shortest : ∀ ds, ds ≠ [] → (∀ d ∈ ds, d < base) → value base ds = (meant xx sign).natAbs →
    out.length ≤ (if meant xx sign < 0 then 1 else 0) + ds.length
  index : buf.length ≤ 15

theorem meant_negative (xx : BitVec 32) (sign : Bool) : meant xx sign < 0 ↔ sign = true ∧ xx.toInt < 0 := by
  rw [← (magnitude xx sign).2,Bool.and_eq_true,decide_eq_true_iff]

/-- A sign comes first exactly before a negative number. -/
theorem signed_first (two : 1 < base) (plain : ∀ d < base, digits d ≠ minus) (v : Int) :
    (signed minus digits base v).head? = some minus ↔ v < 0 := by
  unfold signed
  split
  · rename_i negative
    exact iff_of_true rfl negative
  · rename_i positive
    refine iff_of_false (fun first => ?_) positive
    rw [List.nil_append,List.head?_map,Option.map_eq_some_iff] at first
    obtain ⟨d,front,same⟩ := first
    exact plain d (numeral_below two (List.mem_of_head? front)) same

theorem printed_signed (bases : base = 10 ∨ base = 16) (inverse : ∀ d < base, digitOf (digits d) = d)
    (plain : ∀ d < base, digits d ≠ minus) (whole : buf = (signed minus digits base (meant xx sgn)).reverse) :
    Printed digits xx base sgn buf buf.reverse := by
  have ten : 10 ≤ base := by omega
  have two : 1 < base := by omega
  have out : buf.reverse = signed minus digits base (meant xx sgn) := by rw [whole,List.reverse_reverse]
  have few := @signed_length digits base ten xx sgn
  refine ⟨rfl,out,?_,?_,?_,?_⟩
  · rw [out,signed_first two plain,meant_negative]
  · rw [out,parse_signed two inverse plain]
  · intro ds some_digit below same
    have least := numeral_shortest two some_digit below
    rw [same] at least
    rw [out,signed,List.length_append,List.length_map]
    split
    · exact Nat.add_le_add_left least 1
    · exact Nat.add_le_add_left least 0
  · rw [whole,List.length_reverse]
    omega

theorem lower_back : ∀ d < 16, digitOf (kernelDigits d) = d ∧ kernelDigits d ≠ minus := by decide

theorem upper_back : ∀ d < 16, digitOf (userDigits d) = d ∧ userDigits d ≠ minus := by decide

/-- Both ways of printing an integer. -/
theorem integers_printed (xx : BitVec 32) (sign : Bool) (bases : base = 10 ∨ base = 16) :
    Printed kernelDigits xx base sign (kprintintBuf xx base sign) (kprintint xx base sign) ∧
      Printed userDigits xx base sign (printintBuf xx base sign) (printint xx base sign) := by
  have small : base ≤ 16 := by omega
  have two : 1 < base := by omega
  constructor
  · exact printed_signed bases (fun d low => (lower_back d (by omega)).1) (fun d low => (lower_back d (by omega)).2)
      (kprintintBuf_eq two)
  · exact printed_signed bases (fun d low => (upper_back d (by omega)).1) (fun d low => (upper_back d (by omega)).2)
      (printintBuf_eq two)

/-- The lowest number. -/
theorem integers_printed_lowest :
    Printed kernelDigits (BitVec.intMin 32) 10 true (kprintintBuf (BitVec.intMin 32) 10 true) (kprintint (BitVec.intMin 32) 10 true) ∧
      Printed userDigits (BitVec.intMin 32) 10 true (printintBuf (BitVec.intMin 32) 10 true) (printint (BitVec.intMin 32) 10 true) :=
  integers_printed (BitVec.intMin 32) true (.inl rfl)

end integers

/-- `(null)`. -/
def nullText : List Byte := [40,110,117,108,108,41]

/-- What `printf` does with the character after `%`: the text, and the arguments taken. -/
def userDirective (mem : Nat → Byte) (arg : BitVec 32) (c : Byte) : Option (List Byte × Nat) :=
  if c = 100 then some (printint arg 10 true,1)
  else if c = 120 ∨ c = 112 then some (printint arg 16 false,1)
  else if c = 115 then (if arg = 0 then some nullText else stringAt mem arg).map (·,1)
  else if c = 99 then some ([arg.setWidth 8],1)
  else if c = percent then some ([c],0)
  else some ([percent,c],0)

def printfLoop (mem : Nat → Byte) (args : Nat → BitVec 32) (fmt : Nat) : Nat → Nat → Byte → Nat → Option Output
  | 0, _, _, _ => none
  | fuel+1, i, state, used =>
    let c := mem (fmt+i)
    if c = 0 then some ⟨[],used,[fmt+i]⟩
    else if state = 0 then
      if c = percent then (printfLoop mem args fmt fuel (i+1) percent used).map fun o => o.after [] [fmt+i]
      else (printfLoop mem args fmt fuel (i+1) state used).map fun o => o.after [c] [fmt+i]
    else if state = percent then
      (userDirective mem (args used) c).bind fun r =>
        (printfLoop mem args fmt fuel (i+1) 0 (used + r.2)).map fun o => o.after r.1 [fmt+i]
    else (printfLoop mem args fmt fuel (i+1) state used).map fun o => o.after [] [fmt+i]

def printf (mem : Nat → Byte) (fmt : Nat) (args : Nat → BitVec 32) : Option Output :=
  printfLoop mem args fmt 4294967296 0 0 0

/-- What `printf` makes of a directive and its argument. -/
def userExpansion (mem : Nat → Byte) (arg : BitVec 32) (d : Byte) : List Byte :=
  if d = 100 then signed minus userDigits 10 arg.toInt
  else if d = 120 ∨ d = 112 then signed minus userDigits 16 arg.toNat
  else if d = 115 then (stringAt mem arg).getD []
  else if d = 99 then [arg.setWidth 8]
  else if d = percent then [percent]
  else [percent,d]

section format
variable {mem : Nat → Byte} {args : Nat → BitVec 32} {i fmt used fuel : Nat} {d : Byte} {cs : List Byte}

theorem userDirective_eq {arg : BitVec 32} (text : d = 115 → ∃ cs, Cstring mem arg.toNat cs) :
    userDirective mem arg d = some (userExpansion mem arg d,takes d) := by
  unfold userDirective userExpansion takes
  split
  · rename_i n
    rw [n,printint_eq (by decide)]
    rfl
  split
  · rename_i hex
    rw [printint_eq (by decide)]
    rcases hex with rfl | rfl
    · rfl
    · rfl
  split
  · rename_i s
    obtain ⟨cs,string⟩ := text s
    have address : arg ≠ 0 := fun null => string.address (by rw [null]; rfl)
    rw [if_neg address,string.text,s]
    rfl
  split
  · rename_i c
    rw [c]
    rfl
  split
  · rename_i sign
    rw [sign]
    rfl
  · rename_i n hex s c _
    have other : ¬(d = 115 ∨ d = 99 ∨ d = 100 ∨ d = 112 ∨ d = 120) := by
      simp only [not_or]
      exact ⟨s,c,n,fun p => hex (.inr p),fun x => hex (.inl x)⟩
    rw [if_neg other]

/-- One round for a character that is not a `%`, one for a `%` and one for what follows. -/
theorem printfLoop_spec (string : Cstring mem (fmt+i) cs) (matching : Matching mem args used (pieces cs))
    (enough : cs.length < fuel) :
    ∃ o, printfLoop mem args fmt fuel i 0 used = some o ∧ o.Renders (userExpansion mem) args used (pieces cs) := by
  induction cs using pieces.induct generalizing i used fuel with
  | case1 =>
    obtain ⟨fuel,rfl⟩ : ∃ n, fuel = n + 1 := ⟨fuel - 1,by omega⟩
    exact ⟨⟨[],used,[fmt+i]⟩,if_pos string.stop,⟨rfl,rfl⟩⟩
  | case2 c =>
    rw [List.length_singleton] at enough
    obtain ⟨fuel,rfl⟩ : ∃ n, fuel = n + 2 := ⟨fuel - 2,by omega⟩
    obtain ⟨here,letter⟩ := string.first
    have stop : mem (fmt+(i+1)) = 0 := string.rest.stop
    by_cases sign : c = percent
    · refine ⟨⟨[],used,[fmt+i,fmt+(i+1)]⟩,?_,?_⟩
      · unfold printfLoop
        dsimp only
        rw [here,if_neg letter,if_pos rfl,if_pos sign]
        unfold printfLoop
        rw [if_pos stop]
        rfl
      · rw [pieces,if_pos sign]
        exact ⟨rfl,rfl⟩
    · refine ⟨⟨[c],used,[fmt+i,fmt+(i+1)]⟩,?_,?_⟩
      · unfold printfLoop
        dsimp only
        rw [here,if_neg letter,if_pos rfl,if_neg sign]
        unfold printfLoop
        rw [if_pos stop]
        rfl
      · rw [pieces,if_neg sign]
        exact ⟨rfl,rfl⟩
  | case3 d cs ih =>
    rw [List.length_cons,List.length_cons] at enough
    obtain ⟨fuel,rfl⟩ : ∃ n, fuel = n + 2 := ⟨fuel - 2,by omega⟩
    have short : cs.length < fuel := by omega
    obtain ⟨here,letter⟩ := string.first
    obtain ⟨next,after⟩ := string.rest.first
    rw [Nat.add_assoc fmt i 1] at next
    rw [pieces_directive] at matching ⊢
    obtain ⟨text,matching⟩ := matching
    have later : Cstring mem (fmt + (i+2)) cs := string.rest.rest
    obtain ⟨o,rest,renders⟩ := ih later matching short
    have directive := renders.directive [fmt+(i+1)]
    refine ⟨(o.after (userExpansion mem (args used) d) [fmt+(i+1)]).after [] [fmt+i],?_,⟨directive.out,directive.used⟩⟩
    · unfold printfLoop
      dsimp only
      rw [here,if_neg letter,if_pos rfl,if_pos rfl]
      unfold printfLoop
      dsimp only
      rw [next,if_neg after,if_neg (by decide),if_pos rfl,userDirective_eq fun s => text (by rw [s])]
      change ((printfLoop mem args fmt fuel (i+1+1) 0 (used + takes d)).map _).map _ = _
      rw [show used + takes d = used + (Piece.directive d).takes from rfl,rest]
      rfl
  | case4 c d cs plain ih =>
    rw [List.length_cons] at enough
    obtain ⟨fuel,rfl⟩ : ∃ n, fuel = n + 1 := ⟨fuel - 1,by omega⟩
    have short : (d :: cs).length < fuel := by omega
    obtain ⟨here,letter⟩ := string.first
    rw [pieces_literal plain] at matching ⊢
    have later : Cstring mem (fmt + (i+1)) (d :: cs) := string.rest
    obtain ⟨o,rest,renders⟩ := ih later matching.2 short
    refine ⟨o.after [c] [fmt+i],?_,renders.literal c _⟩
    · unfold printfLoop
      dsimp only
      rw [here,if_neg letter,if_pos rfl,if_neg plain]
      change (printfLoop mem args fmt fuel (i+1) 0 (used + 0)).map _ = _
      rw [show used + 0 = used + (Piece.literal c).takes from rfl,rest]
      rfl

theorem printf_spec (string : Cstring mem fmt cs) (matching : Matching mem args 0 (pieces cs)) :
    ∃ o, printf mem fmt args = some o ∧ o.out = expanded (userExpansion mem) args 0 (pieces cs) ∧
      o.used = taken (pieces cs) := by
  have inside := string.inside
  obtain ⟨o,run,renders⟩ := @printfLoop_spec mem args 0 fmt 0 4294967296 cs string matching (by omega)
  exact ⟨o,run,renders.out,renders.used.trans (Nat.zero_add _)⟩

end format

end Lxos.User
