import Lxos.User.Printf
import Mathlib.Data.List.Forall2

/-! The formatters of the kernel and of the user library, compared. What they print
has the same number of per cent signs and the same length when it agrees, and so it
agrees piece by piece. -/
namespace Lxos.User
open Lxos.Bytes Lxos.Numerals Lxos.Libc Lxos.Drivers

/-- The same character, or a hexadecimal digit in lower and in upper case. -/
def SameCase (c d : Byte) : Prop := c = d ∨ 97 ≤ c.toNat ∧ c.toNat ≤ 102 ∧ d.toNat + 32 = c.toNat

instance (c d : Byte) : Decidable (SameCase c d) := inferInstanceAs (Decidable (_ ∨ _))

/-- The directives that both print alike. -/
def Fine (arg : BitVec 32) (d : Byte) : Prop := d ∈ ([115,99,100,120] : List Byte) ∨ d = 112 ∧ arg.toNat < 10

/-- Every directive of a format is one of these; the first piece has argument `k`. -/
def Alike (args : Nat → BitVec 32) : Nat → List Piece → Prop
  | _, [] => True
  | k, .directive d :: ps => Fine (args k) d ∧ Alike args (k + takes d) ps
  | k, _ :: ps => Alike args k ps

/-- The directives that take no argument. -/
def strange : List Piece → Nat
  | [] => 0
  | .directive d :: ps => (if takes d = 0 then 1 else 0) + strange ps
  | _ :: ps => strange ps

section expansions
variable {mem : Nat → Byte} {args : Nat → BitVec 32} {arg : BitVec 32} {d : Byte} {n k : Nat}

theorem digits_case : ∀ d < 16, SameCase (kernelDigits d) (userDigits d) := by decide

theorem digits_plain : ∀ d < 16, kernelDigits d ≠ percent ∧ userDigits d ≠ percent := by decide

theorem digits_decimal : ∀ d < 10, kernelDigits d = userDigits d := by decide

theorem digits_apart : ∀ d < 10, ∀ e < 16, SameCase (kernelDigits d) (userDigits e) → d = e := by decide

theorem same_refl (text : List Byte) : List.Forall₂ SameCase text text :=
  List.forall₂_same.mpr fun _ _ => .inl rfl

/-- What a directive that takes an argument expands to. -/
theorem expansion_cases (argument : takes d ≠ 0) :
    (d ∈ ([115,99,100] : List Byte) ∧ kernelExpansion mem arg d = userExpansion mem arg d) ∨
    (d = 120 ∧ kernelExpansion mem arg d = (numeral 16 arg.toNat).map kernelDigits ∧
      userExpansion mem arg d = (numeral 16 arg.toNat).map userDigits) ∨
    (d = 112 ∧ kernelExpansion mem arg d = (numeral 10 arg.toNat).map kernelDigits ∧
      userExpansion mem arg d = (numeral 16 arg.toNat).map userDigits) := by
  have known : d = 115 ∨ d = 99 ∨ d = 100 ∨ d = 112 ∨ d = 120 := by
    by_contra other
    exact argument (if_neg other)
  rcases known with rfl | rfl | rfl | rfl | rfl
  · exact .inl ⟨by decide,rfl⟩
  · exact .inl ⟨by decide,rfl⟩
  · refine .inl ⟨by decide,?_⟩
    change signed minus kernelDigits 10 arg.toInt = signed minus userDigits 10 arg.toInt
    unfold signed
    congr 1
    exact List.map_congr_left fun d inside => digits_decimal d (numeral_below (by decide) inside)
  · exact .inr (.inr ⟨rfl,signed_natural _,signed_natural _⟩)
  · exact .inr (.inl ⟨rfl,signed_natural _,signed_natural _⟩)

theorem expansion_none (argument : takes d = 0) :
    kernelExpansion mem arg d = [] ∧ 1 ≤ (userExpansion mem arg d).count percent := by
  have other : ¬(d = 115 ∨ d = 99 ∨ d = 100 ∨ d = 112 ∨ d = 120) := by
    intro known
    rw [takes,if_pos known] at argument
    cases argument
  simp only [not_or] at other
  obtain ⟨s,c,n,p,x⟩ := other
  unfold kernelExpansion userExpansion
  rw [if_neg s,if_neg c,if_neg n,if_neg p,if_neg x,if_neg n,if_neg (not_or.mpr ⟨x,p⟩),if_neg s,if_neg c]
  refine ⟨rfl,?_⟩
  split
  · exact le_refl 1
  · exact List.one_le_count_iff.mpr List.mem_cons_self

theorem digits_count {digits : Nat → Byte} {b : Nat} (two : 1 < b) (small : b ≤ 16)
    (plain : ∀ d < 16, digits d ≠ percent) (n : Nat) : ((numeral b n).map digits).count percent = 0 := by
  refine List.count_eq_zero.mpr fun inside => ?_
  obtain ⟨d,digit,same⟩ := List.mem_map.mp inside
  exact plain d (lt_of_lt_of_le (numeral_below two digit) small) same

theorem expansion_count (argument : takes d ≠ 0) :
    (kernelExpansion mem arg d).count percent = (userExpansion mem arg d).count percent := by
  have lower (b : Nat) (two : 1 < b) (small : b ≤ 16) :=
    digits_count two small (fun d low => (digits_plain d low).1) arg.toNat
  have upper := @digits_count userDigits 16 (by decide) (le_refl 16) (fun d low => (digits_plain d low).2) arg.toNat
  rcases expansion_cases argument with ⟨_,same⟩ | ⟨_,kernel,user⟩ | ⟨_,kernel,user⟩
  · rw [same]
  · rw [kernel,user,lower 16 (by decide) (by decide),upper]
  · rw [kernel,user,lower 10 (by decide) (by decide),upper]

theorem expansion_length (argument : takes d ≠ 0) :
    (userExpansion mem arg d).length ≤ (kernelExpansion mem arg d).length := by
  rcases expansion_cases argument with ⟨_,same⟩ | ⟨_,kernel,user⟩ | ⟨_,kernel,user⟩
  · rw [same]
  · rw [kernel,user,List.length_map,List.length_map]
  · rw [kernel,user,List.length_map,List.length_map]
    exact numeral_base (by decide) (by decide)

theorem same_digits {ds es : List Nat} (lower : ∀ d ∈ ds, d < 10) (upper : ∀ e ∈ es, e < 16)
    (same : List.Forall₂ SameCase (ds.map kernelDigits) (es.map userDigits)) : ds = es := by
  induction ds generalizing es with
  | nil =>
    rw [List.map_nil,List.forall₂_nil_left_iff,List.map_eq_nil_iff] at same
    exact same.symm
  | cons d ds ih =>
    cases es with
    | nil => cases same
    | cons e es =>
      obtain ⟨first,rest⟩ := List.forall₂_cons.mp same
      have head := digits_apart d (lower d List.mem_cons_self) e (upper e List.mem_cons_self) first
      have tail := ih (fun d inside => lower d (List.mem_cons_of_mem _ inside))
        (fun e inside => upper e (List.mem_cons_of_mem _ inside)) rest
      rw [head,tail]

theorem expansion_fine (argument : takes d ≠ 0) :
    List.Forall₂ SameCase (kernelExpansion mem arg d) (userExpansion mem arg d) ↔ Fine arg d := by
  rcases @expansion_cases mem arg d argument with ⟨known,same⟩ | ⟨rfl,kernel,user⟩ | ⟨rfl,kernel,user⟩
  · rw [same]
    refine iff_of_true (same_refl _) (.inl ?_)
    simp only [List.mem_cons,List.not_mem_nil,or_false] at known ⊢
    rcases known with s | c | n
    · exact .inl s
    · exact .inr (.inl c)
    · exact .inr (.inr (.inl n))
  · refine iff_of_true ?_ (.inl (by decide))
    rw [kernel,user,List.forall₂_map_left_iff,List.forall₂_map_right_iff]
    exact List.forall₂_same.mpr fun d inside => digits_case d (numeral_below (by decide) inside)
  · have pointer : Fine arg 112 ↔ arg.toNat < 10 :=
      ⟨fun fine => fine.elim (fun known => absurd known (by decide)) And.right,fun small => .inr ⟨rfl,small⟩⟩
    rw [pointer,kernel,user]
    constructor
    · intro same
      have digits := same_digits (fun d => numeral_below (by decide)) (fun d => numeral_below (by decide)) same
      exact (numeral_same (by decide) (by decide)).mp digits
    · intro small
      rw [numeral_small small,numeral_small (by omega)]
      exact .cons (digits_case _ (by omega)) .nil

end expansions

section formats
variable {mem : Nat → Byte} {args : Nat → BitVec 32} {k fmt : Nat} {cs left right : List Byte} {ps : List Piece}

theorem SameCase.percent {c d : Byte} (same : SameCase c d) : c = Drivers.percent ↔ d = Drivers.percent := by
  rcases same with rfl | ⟨low,high,shift⟩
  · exact Iff.rfl
  · refine iff_of_false (fun sign => ?_) (fun sign => ?_)
    · rw [sign] at low
      exact absurd low (by decide)
    · rw [sign] at shift
      change 37 + 32 = _ at shift
      omega

theorem same_count (same : List.Forall₂ SameCase left right) : left.count percent = right.count percent := by
  induction same with
  | nil => rfl
  | cons first _ ih =>
    rw [List.count_cons,List.count_cons,ih]
    congr 1
    simp only [beq_iff_eq,first.percent]

/-- Each directive without an argument gives the user's text a per cent sign more. -/
theorem expanded_count (args : Nat → BitVec 32) (k : Nat) (ps : List Piece) :
    (expanded (kernelExpansion mem) args k ps).count percent + strange ps ≤
      (expanded (userExpansion mem) args k ps).count percent := by
  induction ps generalizing k with
  | nil => exact le_refl 0
  | cons p ps ih =>
    cases p with
    | literal c =>
      have rest := ih k
      simp only [expanded,List.count_cons,strange]
      omega
    | directive d =>
      have rest := ih (k + takes d)
      simp only [expanded,List.count_append,strange]
      by_cases argument : takes d = 0
      · obtain ⟨kernel,user⟩ := @expansion_none mem (args k) d argument
        rw [kernel,List.count_nil,if_pos argument]
        omega
      · have same := @expansion_count mem (args k) d argument
        rw [same,if_neg argument]
        omega
    | lone => exact ih k

theorem expanded_length (args : Nat → BitVec 32) (k : Nat) (usual : strange ps = 0) :
    (expanded (userExpansion mem) args k ps).length ≤ (expanded (kernelExpansion mem) args k ps).length := by
  induction ps generalizing k with
  | nil => exact le_refl 0
  | cons p ps ih =>
    cases p with
    | literal c => exact Nat.succ_le_succ (ih k usual)
    | directive d =>
      rw [strange] at usual
      have argument : takes d ≠ 0 := fun none => by rw [if_pos none] at usual; omega
      have rest := ih (k + takes d) (by omega)
      have first := @expansion_length mem (args k) d argument
      rw [expanded,expanded,List.length_append,List.length_append]
      exact Nat.add_le_add first rest
    | lone => exact ih k usual

/-- Texts that agree as a whole agree in their parts, when those have the same length. -/
theorem same_split {front back front' back' : List Byte} (length : front.length = front'.length) :
    List.Forall₂ SameCase (front ++ back) (front' ++ back') ↔
      List.Forall₂ SameCase front front' ∧ List.Forall₂ SameCase back back' := by
  constructor
  · intro whole
    have before := List.forall₂_take_append _ _ _ whole
    have after := List.forall₂_drop_append _ _ _ whole
    rw [← length,List.take_left] at before
    rw [← length,List.drop_left] at after
    exact ⟨before,after⟩
  · exact fun parts => List.rel_append parts.1 parts.2

theorem alike_usual (alike : Alike args k ps) : strange ps = 0 := by
  induction ps generalizing k with
  | nil => rfl
  | cons p ps ih =>
    cases p with
    | literal c => exact ih alike
    | directive d =>
      obtain ⟨fine,rest⟩ := alike
      have argument : takes d ≠ 0 := by
        rcases fine with known | ⟨rfl,_⟩
        · simp only [List.mem_cons,List.not_mem_nil,or_false] at known
          rcases known with rfl | rfl | rfl | rfl
          all_goals decide
        · decide
      rw [strange,if_neg argument,ih rest]
    | lone => exact ih alike

/-- With no strange directive the texts agree when every directive does. -/
theorem expanded_alike (usual : strange ps = 0) :
    List.Forall₂ SameCase (expanded (kernelExpansion mem) args k ps) (expanded (userExpansion mem) args k ps) ↔
      Alike args k ps := by
  induction ps generalizing k with
  | nil => exact iff_of_true .nil trivial
  | cons p ps ih =>
    cases p with
    | literal c =>
      rw [expanded,expanded,List.forall₂_cons,ih usual]
      exact and_iff_right (.inl rfl)
    | directive d =>
      rw [strange] at usual
      have argument : takes d ≠ 0 := fun none => by rw [if_pos none] at usual; omega
      have rest : strange ps = 0 := by omega
      have longer := @expanded_length mem ps args (k + takes d) rest
      have first := @expansion_length mem (args k) d argument
      rw [expanded,expanded,Alike,← @expansion_fine mem (args k) d argument,← ih rest]
      constructor
      · intro whole
        have length := whole.length_eq
        rw [List.length_append,List.length_append] at length
        exact (same_split (by omega)).mp whole
      · exact fun parts => (same_split parts.1.length_eq).mpr parts
    | lone => exact ih usual

/-- Both formatters end, have printed the same characters after the prefix of the
kernel, up to the case of hexadecimal digits, and have taken as many arguments. -/
def Agreed (mem : Nat → Byte) (fmt : Nat) (args : Nat → BitVec 32) : Prop :=
  ∃ k u body, kprintf mem fmt args = some k ∧ printf mem fmt args = some u ∧ k.out = kernelPrefix ++ body ∧
    List.Forall₂ SameCase body u.out ∧ k.used = u.used

theorem formatters_agree (string : Cstring mem fmt cs) (matching : Matching mem args 0 (pieces cs))
    (whole : .lone ∉ pieces cs) : Agreed mem fmt args ↔ Alike args 0 (pieces cs) := by
  obtain ⟨k,kernel,_,taken,text⟩ := (kprintf_formatted string matching).mpr whole
  obtain ⟨u,user,text',taken'⟩ := printf_spec string matching
  constructor
  · rintro ⟨k',u',body,kernel',user',body_text,same,_⟩
    obtain rfl := Option.some.inj (kernel.symm.trans kernel')
    obtain rfl := Option.some.inj (user.symm.trans user')
    rw [text] at body_text
    rw [← List.append_cancel_left body_text,text'] at same
    have signs := @expanded_count mem args 0 (pieces cs)
    rw [same_count same] at signs
    exact (expanded_alike (by omega)).mp same
  · intro alike
    refine ⟨k,u,_,kernel,user,text,?_,taken.trans taken'.symm⟩
    rw [text']
    exact (expanded_alike (alike_usual alike)).mpr alike

/-- Two per cent signs. -/
theorem formatters_differ : ¬∀ mem fmt args cs, Cstring mem fmt cs → Matching mem args 0 (pieces cs) →
    .lone ∉ pieces cs → Agreed mem fmt args := by
  intro all
  have string : Cstring (holding [percent,percent]) 1 [percent,percent] := .holding (by decide) (by decide)
  have matching : Matching (holding [percent,percent]) (fun _ => 0) 0 (pieces [percent,percent]) :=
    ⟨fun same => (by cases same),trivial⟩
  have whole : Piece.lone ∉ pieces [percent,percent] := by decide
  have alike := (formatters_agree string matching whole).mp (all _ _ _ _ string matching whole)
  rcases alike.1 with known | ⟨pointer,_⟩
  · exact absurd known (by decide)
  · exact absurd pointer (by decide)

/-- A number in decimal. -/
theorem formatters_agree_decimal : Agreed (holding [percent,100]) 1 (fun _ => 7) := by
  have string : Cstring (holding [percent,100]) 1 [percent,100] := .holding (by decide) (by decide)
  have matching : Matching (holding [percent,100]) (fun _ => 7) 0 (pieces [percent,100]) :=
    ⟨fun same => (by cases same),trivial⟩
  exact (formatters_agree string matching (by decide)).mpr ⟨.inl (by decide),trivial⟩

end formats

end Lxos.User
