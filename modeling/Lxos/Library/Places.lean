import Mathlib.Data.Option.Basic
import Mathlib.Logic.Function.Basic

/-! A finite map kept in a row of places, each with a key and a value or free. The first
place with a key counts; a new key goes to a free place or to the end. -/
namespace Lxos.Places
variable {κ ν : Type} [DecidableEq κ]

/-- What place `i` says about a key. -/
def hit (k : κ) (i : Nat) : Option (κ × ν) → Option (ν × Nat)
  | some (l,v) => if l = k then some (v,i) else none
  | none => none

/-- The value of a key and its first place, among the first `n` places. -/
def find (entry : Nat → Option (κ × ν)) : Nat → κ → Option (ν × Nat)
  | 0, _ => none
  | n+1, k => (find entry n k).or (hit k n (entry n))

section find
variable {entry : Nat → Option (κ × ν)} {k m : κ} {v : ν} {n i : Nat}

theorem hit_some {r : ν × Nat} {e : Option (κ × ν)} : hit k i e = some r ↔ e = some (k,r.1) ∧ r.2 = i := by
  obtain ⟨w,j⟩ := r
  cases e with
  | none => simp [hit]
  | some e =>
    obtain ⟨l,u⟩ := e
    unfold hit
    by_cases same : l = k
    · simp [same,eq_comm]
    · simp [same]

theorem hit_none {e : Option (κ × ν)} : hit k i e = none ↔ ∀ w, e ≠ some (k,w) := by
  rw [Option.eq_none_iff_forall_ne_some]
  constructor
  · intro absent w here
    exact absent (w,i) (hit_some.mpr ⟨here,rfl⟩)
  · intro absent r here
    exact absent r.1 (hit_some.mp here).1

theorem find_congr {entry' : Nat → Option (κ × ν)} (same : ∀ j < n, entry' j = entry j) : find entry' n k = find entry n k := by
  induction n with
  | zero => rfl
  | succ n ih => rw [find,find,ih fun j low => same j (Nat.lt_succ_of_lt low),same n (Nat.lt_succ_self n)]

theorem find_none : find entry n k = none ↔ ∀ j < n, ∀ w, entry j ≠ some (k,w) := by
  induction n with
  | zero => exact iff_of_true rfl fun j low => absurd low (Nat.not_lt_zero j)
  | succ n ih =>
    rw [find,Option.or_eq_none_iff,ih,hit_none]
    constructor
    · rintro ⟨before,last⟩ j low
      rcases Nat.lt_succ_iff_lt_or_eq.mp low with less | rfl
      · exact before j less
      · exact last
    · exact fun all => ⟨fun j less => all j (Nat.lt_succ_of_lt less),all n (Nat.lt_succ_self n)⟩

theorem find_some : find entry n k = some (v,i) ↔
    i < n ∧ entry i = some (k,v) ∧ ∀ j < i, ∀ w, entry j ≠ some (k,w) := by
  induction n with
  | zero => exact iff_of_false (fun h => nomatch h) fun h => absurd h.1 (Nat.not_lt_zero i)
  | succ n ih =>
    rw [find]
    cases before : find entry n k with
    | some r =>
      rw [Option.some_or,← before,ih]
      refine ⟨fun h => ⟨Nat.lt_succ_of_lt h.1,h.2⟩,fun h => ⟨?_,h.2⟩⟩
      rcases Nat.lt_succ_iff_lt_or_eq.mp h.1 with less | rfl
      · exact less
      · exact absurd (find_none.mpr h.2.2) (by rw [before]; exact Option.some_ne_none r)
    | none =>
      have absent := find_none.mp before
      rw [Option.none_or,hit_some]
      constructor
      · rintro ⟨here,last⟩
        have last : i = n := last
        subst last
        exact ⟨Nat.lt_succ_self i,here,absent⟩
      · rintro ⟨low,here,_⟩
        rcases Nat.lt_succ_iff_lt_or_eq.mp low with less | rfl
        · exact absurd here (absent i less v)
        · exact ⟨here,rfl⟩

theorem find_put (absent : find entry n k = none) (free : i < n → entry i = none) (within : i ≤ n) {entry' : Nat → Option (κ × ν)}
    {n' : Nat} (length : n' = max n (i + 1)) (here : entry' i = some (k,v)) (other : ∀ j < n, j ≠ i → entry' j = entry j) :
    find entry' n' m = if m = k then some (v,i) else find entry n m := by
  have old := find_none.mp absent
  have before (j : Nat) (low : j < i) : entry' j = entry j := other j (by omega) (by omega)
  by_cases same : m = k
  · rw [if_pos same,same]
    refine find_some.mpr ⟨by omega,here,fun j low w => ?_⟩
    rw [before j low]
    exact old j (by omega) w
  · rw [if_neg same]
    have new (w : ν) : entry' i ≠ some (m,w) := by
      rw [here]
      exact fun h => same (congrArg Prod.fst (Option.some.inj h)).symm
    cases was : find entry n m with
    | none =>
      refine find_none.mpr fun j low w => ?_
      by_cases there : j = i
      · rw [there]
        exact new w
      · rw [other j (by omega) there]
        exact find_none.mp was j (by omega) w
    | some r =>
      obtain ⟨w,l⟩ := r
      obtain ⟨low,at_l,first⟩ := find_some.mp was
      have apart : l ≠ i := by
        rintro rfl
        rw [free low] at at_l
        cases at_l
      refine find_some.mpr ⟨by omega,by rw [other l low apart]; exact at_l,fun j less u => ?_⟩
      by_cases there : j = i
      · rw [there]
        exact new u
      · rw [other j (by omega) there]
        exact first j less u

end find

end Lxos.Places
