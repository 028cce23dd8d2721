import Mathlib.Logic.Function.Basic
import Mathlib.Data.List.Nodup

/-! Singly linked queues with a head pointer. A walk along them keeps the place of the
pointer that it reads next, so that the last pointer can be stored to. -/
namespace Lxos.Fifo
variable {β : Type} [DecidableEq β]

structure Queue (β : Type) where
  head : Option β
  next : β → Option β

/-- Where a pointer is kept. -/
inductive Place (β : Type)
  | head
  | next (b : β)

/-- The elements met on the way from a pointer. -/
def Linked (next : β → Option β) : Option β → List β → Prop
  | p, [] => p = none
  | p, b :: q => p = some b ∧ Linked next (next b) q

/-- Where the walk along `q` from `p` ends. -/
def last (p : Place β) : List β → Place β
  | [] => p
  | b :: q => last (.next b) q

namespace Queue

def load (l : Queue β) : Place β → Option β
  | .head => l.head
  | .next b => l.next b

def store (l : Queue β) (p : Place β) (v : Option β) : Queue β :=
  match p with
  | .head => { l with head := v }
  | .next b => { l with next := Function.update l.next b v }

/-- The place of the null pointer that a walk from `p` ends at. -/
def walk (l : Queue β) : Nat → Place β → Option (Place β)
  | 0, _ => none
  | fuel+1, p =>
    match l.load p with
    | none => some p
    | some b => walk l fuel (.next b)

def pop (l : Queue β) (b : β) : Queue β := { l with head := l.next b }

def Holds (l : Queue β) (q : List β) : Prop := Linked l.next l.head q

end Queue

section lemmas
variable {l : Queue β} {next next' : β → Option β} {p : Option β} {q r : List β} {b c : β}

omit [DecidableEq β] in
theorem Linked.congr (linked : Linked next p q) (same : ∀ b ∈ q, next' b = next b) : Linked next' p q := by
  induction q generalizing p with
  | nil => exact linked
  | cons b q ih =>
    refine ⟨linked.1,?_⟩
    rw [same b List.mem_cons_self]
    exact ih linked.2 fun c inside => same c (List.mem_cons_of_mem b inside)

omit [DecidableEq β] in
theorem Linked.unique (left : Linked next p q) (right : Linked next p r) : q = r := by
  induction q generalizing p r with
  | nil =>
    cases r with
    | nil => rfl
    | cons c r => exact nomatch left.symm.trans right.1
  | cons b q ih =>
    cases r with
    | nil => exact nomatch left.1.symm.trans right
    | cons c r =>
      obtain rfl := Option.some.inj (left.1.symm.trans right.1)
      rw [ih left.2 right.2]

omit [DecidableEq β] in
theorem last_next (c : β) (q : List β) : ∃ d ∈ c :: q, last (.next c) q = .next d := by
  induction q generalizing c with
  | nil => exact ⟨c,List.mem_cons_self,rfl⟩
  | cons d q ih =>
    obtain ⟨e,inside,same⟩ := ih d
    exact ⟨e,List.mem_cons_of_mem c inside,same⟩

omit [DecidableEq β] in
theorem walk_last {p : Place β} (linked : Linked l.next (l.load p) q) {fuel : Nat} (enough : q.length < fuel) :
    l.walk fuel p = some (last p q) := by
  induction q generalizing p fuel with
  | nil =>
    obtain ⟨fuel,rfl⟩ := Nat.exists_eq_add_one.mpr enough
    have stop : l.load p = none := linked
    rw [Queue.walk,stop]
    rfl
  | cons b q ih =>
    obtain ⟨fuel,rfl⟩ := Nat.exists_eq_add_one.mpr (Nat.zero_lt_of_lt enough)
    have rest : Linked l.next (l.load (.next b)) q := linked.2
    rw [Queue.walk,linked.1]
    exact ih rest (Nat.lt_of_succ_lt_succ enough)

omit [DecidableEq β] in
theorem walk_short {p : Place β} (linked : Linked l.next (l.load p) q) {fuel : Nat} (short : fuel ≤ q.length) :
    l.walk fuel p = none := by
  induction q generalizing p fuel with
  | nil =>
    rw [Nat.le_zero.mp short]
    rfl
  | cons b q ih =>
    cases fuel with
    | zero => rfl
    | succ fuel =>
      have rest : Linked l.next (l.load (.next b)) q := linked.2
      rw [Queue.walk,linked.1]
      exact ih rest (Nat.le_of_succ_le_succ short)

/-- Storing to the last pointer of a walk extends what the walk meets. -/
theorem Linked.enqueue {p : Place β} (linked : Linked l.next (l.load p) q) (distinct : q.Nodup) (outside : b ∉ q)
    (stop : l.next b = none) (apart : ∀ c, p = .next c → c ∉ q ∧ c ≠ b) :
    Linked (l.store (last p q) (some b)).next ((l.store (last p q) (some b)).load p) (q ++ [b]) := by
  induction q generalizing p with
  | nil =>
    cases p with
    | head => exact ⟨rfl,stop⟩
    | next c =>
      refine ⟨Function.update_self c _ _,?_⟩
      exact (Function.update_of_ne (apart c rfl).2.symm _ _).trans stop
  | cons c q ih =>
    obtain ⟨absent,distinct⟩ := List.nodup_cons.mp distinct
    obtain ⟨d,inside,target⟩ := last_next c q
    refine ⟨?_,ih linked.2 distinct (fun inside => outside (List.mem_cons_of_mem c inside)) ?_⟩
    · rw [last,target]
      cases p with
      | head => exact linked.1
      | next a =>
        have other : a ≠ d := by
          rintro rfl
          exact (apart a rfl).1 inside
        exact (Function.update_of_ne other _ _).trans linked.1
    · intro e same
      cases same
      exact ⟨absent,fun same => outside (same ▸ List.mem_cons_self)⟩

end lemmas

namespace Queue
variable {l : Queue β} {q r : List β} {b : β}

omit [DecidableEq β] in
theorem Holds.unique (left : l.Holds q) (right : l.Holds r) : q = r := Linked.unique left right

omit [DecidableEq β] in
theorem Holds.front (holds : l.Holds (b :: q)) : l.head = some b := holds.1

omit [DecidableEq β] in
theorem Holds.pop (holds : l.Holds (b :: q)) : (l.pop b).Holds q := holds.2

/-- The pointer of an element outside changes. -/
theorem Holds.store (holds : l.Holds q) (outside : b ∉ q) (v : Option β) : (l.store (.next b) v).Holds q :=
  Linked.congr holds fun _ inside => Function.update_of_ne (ne_of_mem_of_not_mem inside outside) _ _

/-- An element whose own pointer is null is added at the end. -/
theorem Holds.enqueue (holds : l.Holds q) (distinct : q.Nodup) (outside : b ∉ q) {fuel : Nat} (enough : q.length < fuel) :
    ∃ p, (l.store (.next b) none).walk fuel .head = some p ∧ ((l.store (.next b) none).store p (some b)).Holds (q ++ [b]) := by
  have cleared : Linked (l.store (.next b) none).next ((l.store (.next b) none).load .head) q := holds.store outside none
  exact ⟨last .head q,walk_last cleared enough,
    cleared.enqueue distinct outside (Function.update_self b _ _) fun c absurd => nomatch absurd⟩

end Queue

end Lxos.Fifo
