import Mathlib.Algebra.BigOperators.Group.List.Basic
import Mathlib.Algebra.Ring.Int.Defs
import Mathlib.Data.List.Infix

/-! Words of events that open, use and close resources, latest event first. In a nested
word every resource is closed again in the reverse order, and a bounded number is open
at a time. -/
namespace Lxos.Nesting

/-- What an event does to the resource named by a key. -/
inductive Act (κ : Type)
  | opens (k : κ)
  | closes (k : κ)
  | uses (k : κ)
  | other

variable {α κ : Type} {act : α → Act κ}

/-- At most `n` resources are open at a time besides those in `held`. -/
inductive Nested (act : α → Act κ) : Nat → List κ → List α → Prop
  | nil (n : Nat) (held : List κ) : Nested act n held []
  | other {n : Nat} {held : List κ} {e : α} (quiet : act e = .other) : Nested act n held [e]
  | uses {n : Nat} {held : List κ} {e : α} {k : κ} (use : act e = .uses k) (inside : k ∈ held) : Nested act n held [e]
  | append {n : Nat} {held : List κ} {es fs : List α} (first : Nested act n held es) (second : Nested act n held fs) :
      Nested act n held (fs ++ es)
  | pair {n : Nat} {held : List κ} {es : List α} {e f : α} {k : κ} (start : act e = .opens k) (stop : act f = .closes k)
      (body : Nested act n (k :: held) es) : Nested act (n+1) held (f :: (es ++ [e]))

variable {n m : Nat} {held held' : List κ} {es fs : List α}

theorem Nested.mono (nested : Nested act n held es) (more : n ≤ m) : Nested act m held es := by
  induction nested generalizing m with
  | nil => exact .nil m _
  | other quiet => exact .other quiet
  | uses use inside => exact .uses use inside
  | append _ _ ih ih' => exact .append (ih more) (ih' more)
  | pair start stop _ ih =>
    obtain ⟨m,rfl⟩ := Nat.exists_eq_add_of_le' (Nat.succ_le_of_lt (Nat.lt_of_succ_le more))
    exact .pair start stop (ih (Nat.le_of_succ_le_succ more))

theorem Nested.weaken (nested : Nested act n held es) (sub : held ⊆ held') : Nested act n held' es := by
  induction nested generalizing held' with
  | nil => exact .nil _ held'
  | other quiet => exact .other quiet
  | uses use inside => exact .uses use (sub inside)
  | append _ _ ih ih' => exact .append (ih sub) (ih' sub)
  | pair start stop _ ih => exact .pair start stop (ih (List.cons_subset_cons _ sub))

/-- What a word adds up to, by the weight of each act. -/
def total (act : α → Act κ) (weight : Act κ → Int) (es : List α) : Int := (es.map fun e => weight (act e)).sum

section totals
variable {weight : Act κ → Int}

theorem total_append (es fs : List α) : total act weight (fs ++ es) = total act weight fs + total act weight es := by
  unfold total
  rw [List.map_append,List.sum_append]

theorem total_cons (e : α) (es : List α) : total act weight (e :: es) = weight (act e) + total act weight es := by
  unfold total
  rw [List.map_cons,List.sum_cons]

theorem total_single (e : α) : total act weight [e] = weight (act e) := by
  rw [total_cons]
  exact Int.add_zero _

/-- A part of a word that began earlier is a part of its beginning, or goes on after it. -/
theorem suffix_append {l : List α} (part : l <:+ fs ++ es) : l <:+ es ∨ ∃ t, t <:+ fs ∧ l = t ++ es := by
  obtain ⟨s,whole⟩ := part
  rcases List.append_eq_append_iff.mp whole with ⟨t,left,right⟩ | ⟨t,left,right⟩
  · exact Or.inr ⟨t,⟨s,left.symm⟩,right⟩
  · exact Or.inl ⟨t,right.symm⟩

/-- Weights that only opening and closing have. -/
structure Balancing (weight : Act κ → Int) : Prop where
  uses : ∀ k, weight (.uses k) = 0
  other : weight .other = 0
  closes : ∀ k, weight (.closes k) = -weight (.opens k)
  opens : ∀ k, 0 ≤ weight (.opens k) ∧ weight (.opens k) ≤ 1

/-- A nested word adds up to nothing, and never to less or to more than its depth. -/
theorem Nested.total (balancing : Balancing weight) (nested : Nested act n held es) :
    Nesting.total act weight es = 0 ∧ ∀ l, l <:+ es → 0 ≤ Nesting.total act weight l ∧ Nesting.total act weight l ≤ n := by
  have single {e : α} {n : Nat} (zero : weight (act e) = 0) : Nesting.total act weight [e] = 0 ∧
      ∀ l, l <:+ [e] → 0 ≤ Nesting.total act weight l ∧ Nesting.total act weight l ≤ n := by
    rw [total_single]
    refine ⟨zero,fun l part => ?_⟩
    rcases List.suffix_cons_iff.mp part with rfl | part
    · rw [total_single,zero]
      omega
    · rw [List.suffix_nil.mp part]
      exact ⟨Int.le_refl 0,Int.natCast_nonneg n⟩
  induction nested with
  | nil n held =>
    refine ⟨rfl,fun l part => ?_⟩
    rw [List.suffix_nil.mp part]
    exact ⟨Int.le_refl 0,Int.natCast_nonneg n⟩
  | other quiet => exact single (by rw [quiet]; exact balancing.other)
  | uses use inside => exact single (by rw [use]; exact balancing.uses _)
  | append first second ih ih' =>
    refine ⟨by rw [total_append,ih.1,ih'.1]; rfl,fun l part => ?_⟩
    rcases suffix_append part with early | ⟨t,late,rfl⟩
    · exact ih.2 l early
    · rw [total_append,ih.1,Int.add_zero]
      exact ih'.2 t late
  | pair start stop body ih =>
    rename_i n held es e f k
    have up := balancing.opens k
    have down := balancing.closes k
    refine ⟨?_,fun l part => ?_⟩
    · rw [total_cons,total_append,total_single,ih.1,start,stop]
      omega
    rcases List.suffix_cons_iff.mp part with rfl | part
    · rw [total_cons,total_append,total_single,ih.1,start,stop]
      omega
    rcases suffix_append part with early | ⟨t,late,rfl⟩
    · rcases List.suffix_cons_iff.mp early with rfl | early
      · rw [total_single,start]
        omega
      · rw [List.suffix_nil.mp early]
        exact ⟨Int.le_refl 0,Int.natCast_nonneg _⟩
    · have inner := ih.2 t late
      rw [total_append,total_single,start]
      omega

end totals

section counts
variable [DecidableEq κ]

/-- How often the resource `k` is open. -/
def pins (act : α → Act κ) (k : κ) : List α → Int :=
  total act fun
    | .opens l => if k = l then 1 else 0
    | .closes l => if k = l then -1 else 0
    | _ => 0

/-- How many are open, counted with repetition. -/
def level (act : α → Act κ) : List α → Int :=
  total act fun
    | .opens _ => 1
    | .closes _ => -1
    | _ => 0

theorem Nested.pins (nested : Nested act n held es) (k : κ) :
    Nesting.pins act k es = 0 ∧ ∀ l, l <:+ es → 0 ≤ Nesting.pins act k l := by
  have balancing : Balancing fun a : Act κ => match a with
      | .opens l => if k = l then (1 : Int) else 0
      | .closes l => if k = l then -1 else 0
      | _ => 0 := by
    refine ⟨fun _ => rfl,rfl,fun l => ?_,fun l => ?_⟩
    all_goals
      dsimp only
      split
    all_goals decide
  have totals := nested.total balancing
  exact ⟨totals.1,fun l part => (totals.2 l part).1⟩

omit [DecidableEq κ] in
theorem Nested.level (nested : Nested act n held es) :
    Nesting.level act es = 0 ∧ ∀ l, l <:+ es → 0 ≤ Nesting.level act l ∧ Nesting.level act l ≤ n :=
  nested.total ⟨fun _ => rfl,rfl,fun _ => rfl,fun _ => ⟨Int.zero_le_ofNat 1,Int.le_refl 1⟩⟩

end counts

end Lxos.Nesting
