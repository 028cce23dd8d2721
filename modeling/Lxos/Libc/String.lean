import Lxos.Library.Bytes
import Mathlib.Data.List.GetD
import Mathlib.Logic.Function.Basic

/-! Strings of `string.c`. Memory is seen from the pointer, in both directions, and a
string ends with its first zero. With the length go the places that were read. -/
namespace Lxos.Libc
open Lxos.Bytes

abbrev Chars := Int → Byte

def strlenLoop (s : Chars) : Nat → Nat → Option (Nat × List Int)
  | 0, _ => none
  | fuel+1, i =>
    if s i = 0 then some (i,[(i : Int)])
    else (strlenLoop s fuel (i+1)).map fun r => (r.1,(i : Int) :: r.2)

/-- The count is an `int`. -/
def strlen (s : Chars) : Option (Nat × List Int) := strlenLoop s 2147483648 0

def append (s : Chars) (n : Byte) : Option (Chars × List Int) :=
  (strlen s).map fun r =>
    (Function.update (Function.update s r.1 n) (r.1 + 1) 0,r.2 ++ [(r.1 : Int),(r.1 : Int) + 1])

def backspace (s : Chars) : Option (Chars × List Int) :=
  (strlen s).map fun r => (Function.update s ((r.1 : Int) - 1) 0,r.2 ++ [(r.1 : Int) - 1])

/-- The string at the pointer. -/
structure Text (s : Chars) (cs : List Byte) : Prop where
  byte : ∀ i : Nat, i ≤ cs.length → s i = cs.getD i 0
  plain : 0 ∉ cs

section text
variable {s : Chars} {cs : List Byte}

theorem Text.stop (text : Text s cs) : s cs.length = 0 := by
  rw [text.byte _ (le_refl _),List.getD_eq_default _ _ (le_refl _)]

theorem Text.inside (text : Text s cs) {i : Nat} (low : i < cs.length) : s i ≠ 0 := by
  intro zero
  rw [text.byte i (le_of_lt low),List.getD_eq_getElem _ _ low] at zero
  exact text.plain (zero ▸ List.getElem_mem low)

theorem strlenLoop_spec (text : Text s cs) (fuel i : Nat) (low : i ≤ cs.length) (enough : cs.length < i + fuel) :
    ∃ used, strlenLoop s fuel i = some (cs.length,used) ∧ ∀ x, x ∈ used ↔ (i : Int) ≤ x ∧ x ≤ cs.length := by
  induction fuel generalizing i with
  | zero => omega
  | succ fuel ih =>
    unfold strlenLoop
    rcases Nat.lt_or_ge i cs.length with inside | past
    · rw [if_neg (text.inside inside)]
      obtain ⟨used,rest,places⟩ := ih (i+1) inside (by omega)
      refine ⟨(i : Int) :: used,by rw [rest]; rfl,fun x => ?_⟩
      rw [List.mem_cons,places]
      omega
    · obtain rfl : i = cs.length := by omega
      rw [if_pos text.stop]
      refine ⟨_,rfl,fun x => ?_⟩
      rw [List.mem_singleton]
      omega

theorem strlen_spec (text : Text s cs) (short : cs.length < 2147483648) :
    ∃ used, strlen s = some (cs.length,used) ∧ ∀ x, x ∈ used ↔ 0 ≤ x ∧ x ≤ cs.length :=
  strlenLoop_spec text _ 0 (Nat.zero_le _) (by omega)

theorem Text.append (text : Text s cs) {c : Byte} (letter : c ≠ 0) :
    Text (Function.update (Function.update s cs.length c) (cs.length + 1) 0) (cs ++ [c]) := by
  refine ⟨fun i low => ?_,fun zero => ?_⟩
  · rw [List.length_append,List.length_singleton] at low
    rcases Nat.lt_or_ge i cs.length with inside | past
    · rw [Function.update_of_ne (by omega),Function.update_of_ne (by omega),text.byte i (by omega),
        List.getD_append _ _ _ _ inside]
    rcases eq_or_ne i cs.length with rfl | last
    · rw [Function.update_of_ne (by omega),Function.update_self,List.getD_append_right _ _ _ _ (le_refl _),Nat.sub_self]
      rfl
    · obtain rfl : i = cs.length + 1 := by omega
      rw [Nat.cast_add,Nat.cast_one,Function.update_self]
      exact (List.getD_eq_default _ _ (by rw [List.length_append,List.length_singleton])).symm
  · rcases List.mem_append.mp zero with old | new
    · exact text.plain old
    · exact letter (List.mem_singleton.mp new).symm

theorem Text.dropLast (text : Text s cs) (some_char : cs ≠ []) :
    Text (Function.update s ((cs.length : Int) - 1) 0) cs.dropLast := by
  have length := List.length_pos_iff.mpr some_char
  refine ⟨fun i low => ?_,fun zero => text.plain (List.dropLast_subset _ zero)⟩
  rw [List.length_dropLast] at low
  rcases Nat.lt_or_ge i (cs.length - 1) with inside | past
  · rw [Function.update_of_ne (by omega),text.byte i (by omega),List.dropLast_eq_take,
      List.getD_eq_getElem _ _ (by omega),List.getD_eq_getElem _ _ (by rw [List.length_take]; omega),List.getElem_take]
  · obtain rfl : i = cs.length - 1 := by omega
    rw [Nat.cast_sub length,Nat.cast_one,Function.update_self]
    exact (List.getD_eq_default _ _ (by rw [List.length_dropLast])).symm

theorem append_spec (text : Text s cs) (short : cs.length < 2147483648) (c : Byte) :
    ∃ used, Libc.append s c = some (Function.update (Function.update s cs.length c) (cs.length + 1) 0,used) ∧
      ∀ x, x ∈ used ↔ 0 ≤ x ∧ x ≤ cs.length + 1 := by
  obtain ⟨used,length,places⟩ := strlen_spec text short
  refine ⟨used ++ [(cs.length : Int),(cs.length : Int) + 1],by unfold Libc.append; rw [length]; rfl,fun x => ?_⟩
  rw [List.mem_append,places,List.mem_cons,List.mem_singleton]
  omega

theorem backspace_spec (text : Text s cs) (short : cs.length < 2147483648) :
    ∃ used, backspace s = some (Function.update s ((cs.length : Int) - 1) 0,used) ∧
      ∀ x, x ∈ used ↔ 0 ≤ x ∧ x ≤ cs.length ∨ x = (cs.length : Int) - 1 := by
  obtain ⟨used,length,places⟩ := strlen_spec text short
  refine ⟨used ++ [(cs.length : Int) - 1],by unfold backspace; rw [length]; rfl,fun x => ?_⟩
  rw [List.mem_append,places,List.mem_singleton]

end text

end Lxos.Libc
