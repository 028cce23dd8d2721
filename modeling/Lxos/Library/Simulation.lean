import Mathlib.Logic.Relation

/-! A machine that is asked and answers, and another that carries it out step by step. What
one step does is enough to know what a whole run answers. -/
namespace Lxos.Simulation
variable {σ τ ρ α ε : Type}

/-- A run, with the requests and answers on the way. -/
inductive Traced (step : σ → Option (ρ × α) → σ → Prop) (s : σ) : List (ρ × α) → σ → Prop
  | start : Traced step s [] s
  | silent {log : List (ρ × α)} {t u : σ} : Traced step s log t → step t none u → Traced step s log u
  | answered {log : List (ρ × α)} {t u : σ} {x : ρ × α} :
      Traced step s log t → step t (some x) u → Traced step s (log ++ [x]) u

theorem Traced.mono {step' : σ → Option (ρ × α) → σ → Prop} {step : σ → Option (ρ × α) → σ → Prop} {s t : σ}
    {log : List (ρ × α)} (weaker : ∀ s x t, step' s x t → step s x t) (run : Traced step' s log t) : Traced step s log t := by
  induction run with
  | start => exact .start
  | silent _ last ih => exact .silent ih (weaker _ _ _ last)
  | answered _ last ih => exact .answered ih (weaker _ _ _ last)

/-- The answers to some requests in turn, and the state after them. -/
def answers (serve : τ → ρ → Except ε (α × τ)) : τ → List ρ → Except ε (List α × τ)
  | s, [] => .ok ([],s)
  | s, q :: qs =>
    match serve s q with
    | .error e => .error e
    | .ok (a,t) =>
      match answers serve t qs with
      | .error e => .error e
      | .ok (as,u) => .ok (a :: as,u)

section answers
variable {serve : τ → ρ → Except ε (α × τ)} {s t u : τ} {q : ρ} {a : α} {qs : List ρ} {as : List α}

theorem answers_cons : answers serve s (q :: qs) = .ok (as,u) ↔
    ∃ a t bs, serve s q = .ok (a,t) ∧ answers serve t qs = .ok (bs,u) ∧ as = a :: bs := by
  rw [answers]
  constructor
  · intro ok
    split at ok
    · cases ok
    · rename_i a t first
      split at ok
      · cases ok
      · rename_i bs v rest
        obtain ⟨rfl,rfl⟩ := Prod.mk.inj (Except.ok.inj ok)
        exact ⟨a,t,bs,first,rest,rfl⟩
  · rintro ⟨a,t,bs,first,rest,rfl⟩
    rw [first]
    dsimp only
    rw [rest]

theorem answers_append (first : answers serve s qs = .ok (as,t)) (last : serve t q = .ok (a,u)) :
    answers serve s (qs ++ [q]) = .ok (as ++ [a],u) := by
  induction qs generalizing s as with
  | nil =>
    obtain ⟨rfl,rfl⟩ := Prod.mk.inj (Except.ok.inj first)
    exact answers_cons.mpr ⟨a,u,[],last,rfl,rfl⟩
  | cons p qs ih =>
    obtain ⟨b,t',bs,here,rest,rfl⟩ := answers_cons.mp first
    exact answers_cons.mpr ⟨b,t',bs ++ [a],here,ih rest,rfl⟩

/-- What every answer keeps, all answers keep, and how they change the state adds up. -/
theorem answers_onward {Inv : τ → Prop} {R : τ → τ → Prop} (refl : ∀ s, R s s)
    (trans : ∀ s t u, R s t → R t u → R s u) (step : ∀ s q a t, Inv s → serve s q = .ok (a,t) → Inv t ∧ R s t)
    (start : Inv s) (ok : answers serve s qs = .ok (as,u)) : Inv u ∧ R s u := by
  induction qs generalizing s as with
  | nil =>
    obtain ⟨rfl,rfl⟩ := Prod.mk.inj (Except.ok.inj ok)
    exact ⟨start,refl s⟩
  | cons q qs ih =>
    obtain ⟨a,t,bs,first,rest,rfl⟩ := answers_cons.mp ok
    obtain ⟨now,moved⟩ := step s q a t start first
    obtain ⟨last,onward⟩ := ih now rest
    exact ⟨last,trans s t u moved onward⟩

end answers

/-- Each step of the one machine is an answer of the other or does not show in it, as long
as the state it ends in is good. -/
structure Refines (step : σ → Option (ρ × α) → σ → Prop) (serve : τ → ρ → Except ε (α × τ)) (abs : σ → τ)
    (Good Inv : σ → Prop) : Prop where
  keep : ∀ s x t, Inv s → step s x t → Inv t
  back : ∀ s x t, Inv s → step s x t → Good t → Good s
  silent : ∀ s t, Inv s → step s none t → Good t → abs t = abs s
  answered : ∀ s q a t, Inv s → step s (some (q,a)) t → Good t → serve (abs s) q = .ok (a,abs t)

section refines
variable {step : σ → Option (ρ × α) → σ → Prop} {serve : τ → ρ → Except ε (α × τ)} {abs : σ → τ} {Good Inv : σ → Prop}
  {s t : σ} {log : List (ρ × α)}

theorem Refines.inv (refines : Refines step serve abs Good Inv) (start : Inv s) (run : Traced step s log t) : Inv t := by
  induction run with
  | start => exact start
  | silent _ last ih => exact refines.keep _ _ _ ih last
  | answered _ last ih => exact refines.keep _ _ _ ih last

/-- A whole run answers what the other machine answers to the same requests. -/
theorem Refines.run (refines : Refines step serve abs Good Inv) (start : Inv s) (run : Traced step s log t) (good : Good t) :
    answers serve (abs s) (log.map Prod.fst) = .ok (log.map Prod.snd,abs t) := by
  induction run with
  | start => rfl
  | silent before last ih =>
    have inv := refines.inv start before
    rw [refines.silent _ _ inv last good]
    exact ih (refines.back _ _ _ inv last good)
  | @answered log t u x before last ih =>
    obtain ⟨q,a⟩ := x
    have inv := refines.inv start before
    rw [List.map_append,List.map_append]
    exact answers_append (ih (refines.back _ _ _ inv last good)) (refines.answered _ _ _ _ inv last good)

end refines

end Lxos.Simulation
