import Mathlib.Data.List.Nodup
import Mathlib.Logic.Function.Basic

/-! Circular doubly linked lists with a sentinel, over any type of nodes. The
list stands for the nodes met from the sentinel along `next`; along `prev` they
are met in reverse. Splicing changes the list and nothing else. -/
namespace Lxos.Ring
variable {ι : Type}

structure Links (ι : Type) where
  next : ι → ι
  prev : ι → ι

/-- From `a`, `step` visits the nodes of the list and then reaches `z`. -/
def Path (step : ι → ι) : ι → List ι → ι → Prop
  | a, [], z => step a = z
  | a, x :: l, z => step a = x ∧ Path step x l z

/-- The first node satisfying `p`, or none before `stop`; no answer without fuel. -/
def scan (step : ι → ι) (stop : ι) [DecidableEq ι] (p : ι → Bool) : Nat → ι → Option (Option ι)
  | 0, _ => none
  | fuel+1, a => if a = stop then some none else if p a then some (some a) else scan step stop p fuel (step a)

structure Represents (links : Links ι) (head : ι) (order : List ι) : Prop where
  nodup : (head :: order).Nodup
  forward : Path links.next head order head
  backward : Path links.prev head order.reverse head

section path
variable {step step' : ι → ι} {a b z : ι} {l xs ys : List ι}

theorem path_append : Path step a (xs ++ b :: ys) z ↔ Path step a xs b ∧ Path step b ys z := by
  induction xs generalizing a with
  | nil => exact Iff.rfl
  | cons x xs ih =>
    simp only [List.cons_append,Path,ih]
    exact and_assoc.symm

theorem Path.congr (path : Path step a l z) (same : ∀ y ∈ a :: l, step' y = step y) : Path step' a l z := by
  induction l generalizing a with
  | nil => exact (same a (List.mem_singleton_self a)).trans path
  | cons x l ih =>
    refine ⟨(same a List.mem_cons_self).trans path.1,ih path.2 ?_⟩
    intro y inside
    exact same y (List.mem_cons_of_mem a inside)

/-- A path starts over from a node with the same successor. -/
theorem Path.restart (path : Path step a l z) (first : step' b = step a)
    (same : ∀ y ∈ l, step' y = step y) : Path step' b l z := by
  cases l with
  | nil => exact first.trans path
  | cons x l => exact ⟨first.trans path.1,path.2.congr same⟩

theorem Path.last (path : Path step b l.reverse a) : step b = (a :: l).getLast (List.cons_ne_nil a l) := by
  rcases List.eq_nil_or_concat l with rfl | ⟨m,x,rfl⟩
  · exact path
  · rw [List.concat_eq_append,List.reverse_append] at path
    simp only [List.concat_eq_append,← List.cons_append,List.getLast_append_singleton]
    exact path.1

theorem last_mem (a : ι) (l : List ι) : (a :: l).getLast (List.cons_ne_nil a l) ∈ a :: l :=
  List.getLast_mem _

variable [DecidableEq ι]

theorem Path.redirect (path : Path step a l z) (nodup : (a :: l).Nodup) (w : ι) :
    Path (Function.update step ((a :: l).getLast (List.cons_ne_nil a l)) w) a l w := by
  induction l generalizing a with
  | nil => exact Function.update_self _ _ _
  | cons x l ih =>
    have inside := last_mem x l
    have distinct : a ≠ (x :: l).getLast (List.cons_ne_nil x l) := by
      rintro equal
      exact (List.nodup_cons.mp nodup).1 (equal ▸ inside)
    rw [List.getLast_cons (List.cons_ne_nil x l)]
    refine ⟨?_,ih path.2 (List.nodup_cons.mp nodup).2⟩
    rw [Function.update_of_ne distinct]
    exact path.1

/-- Node `b` is bypassed. -/
theorem Path.cut (path : Path step a (xs ++ b :: ys) z) (nodup : (a :: (xs ++ b :: ys)).Nodup) :
    Path (Function.update step ((a :: xs).getLast (List.cons_ne_nil a xs)) (step b)) a (xs ++ ys) z := by
  obtain ⟨left,right⟩ := path_append.mp path
  rw [← List.cons_append] at nodup
  obtain ⟨front,back,apart⟩ := List.nodup_append'.mp nodup
  have moved := left.redirect front (step b)
  cases ys with
  | nil =>
    have target : step b = z := right
    rw [List.append_nil]
    rw [target] at moved ⊢
    exact moved
  | cons y ys =>
    rw [path_append]
    rw [right.1] at moved ⊢
    refine ⟨moved,right.2.congr ?_⟩
    intro x inside
    apply Function.update_of_ne
    rintro rfl
    exact apart (last_mem a xs) (List.mem_cons_of_mem b inside)

theorem scan_path {stop : ι} {p : ι → Bool} {fuel : Nat} (path : Path step a l stop) (outside : stop ∉ l)
    (enough : l.length < fuel) : scan step stop p fuel (step a) = some (l.find? p) := by
  induction l generalizing a fuel with
  | nil =>
    obtain ⟨fuel,rfl⟩ := Nat.exists_eq_add_of_lt enough
    have arrived : step a = stop := path
    simp [scan,arrived]
  | cons x l ih =>
    cases fuel with
    | zero => exact absurd enough (Nat.not_lt_zero _)
    | succ fuel =>
      have distinct : x ≠ stop := by
        rintro rfl
        exact outside List.mem_cons_self
      rw [path.1,scan,if_neg distinct]
      cases test : p x with
      | true => simp [test]
      | false =>
        have rest := ih path.2 (fun inside => outside (List.mem_cons_of_mem x inside))
          (Nat.lt_of_succ_lt_succ enough)
        simp [test,rest]

end path

variable [DecidableEq ι]

/-- Take `b` out: its neighbours are linked to each other. -/
def unlink (links : Links ι) (b : ι) : Links ι where
  prev := Function.update links.prev (links.next b) (links.prev b)
  next := Function.update links.next (links.prev b) (links.next b)

/-- Put `b` right after `head`. -/
def push (links : Links ι) (head b : ι) : Links ι where
  prev := Function.update (Function.update links.prev b head) (links.next head) b
  next := Function.update (Function.update links.next b (links.next head)) head b

section ring
variable {links : Links ι} {head b : ι} {order xs ys : List ι}

omit [DecidableEq ι] in
theorem Represents.next_head (ring : Represents links head order) :
    links.next head = (head :: order.reverse).getLast (List.cons_ne_nil head _) := by
  have path := ring.forward
  rw [← List.reverse_reverse order] at path
  exact path.last

theorem Represents.unlink (ring : Represents links head (xs ++ b :: ys)) :
    Represents (unlink links b) head (xs ++ ys) := by
  obtain ⟨nodup,forward,backward⟩ := ring
  have flipped : (xs ++ b :: ys).reverse = ys.reverse ++ b :: xs.reverse := by simp
  rw [flipped] at backward
  have before : links.prev b = (head :: xs).getLast (List.cons_ne_nil head xs) :=
    (path_append.mp backward).2.last
  have after : links.next b = (head :: ys.reverse).getLast (List.cons_ne_nil head _) := by
    have path := (path_append.mp forward).2
    rw [← List.reverse_reverse ys] at path
    exact path.last
  have nodup' : (head :: (ys.reverse ++ b :: xs.reverse)).Nodup := by
    rw [← flipped]
    exact (List.Perm.cons head (List.reverse_perm _)).nodup_iff.mpr nodup
  refine ⟨?_,?_,?_⟩
  · exact nodup.sublist (List.Sublist.cons_cons head (List.Sublist.append_left (List.sublist_cons_self b ys) xs))
  · have cut := forward.cut nodup
    rw [← before] at cut
    exact cut
  · have cut := backward.cut nodup'
    rw [← after] at cut
    rw [List.reverse_append]
    exact cut

theorem Represents.push (ring : Represents links head order) (fresh : b ∉ head :: order) :
    Represents (push links head b) head (b :: order) := by
  have first := ring.next_head
  obtain ⟨nodup,forward,backward⟩ := ring
  obtain ⟨distinct,absent⟩ := not_or.mp (mt List.mem_cons.mpr fresh)
  have outside := (List.nodup_cons.mp nodup).1
  have reverse : (head :: order.reverse).Nodup :=
    (List.Perm.cons head (List.reverse_perm _)).nodup_iff.mpr nodup
  refine ⟨?_,?_,?_⟩
  · refine List.nodup_cons.mpr ⟨?_,List.nodup_cons.mpr ⟨absent,(List.nodup_cons.mp nodup).2⟩⟩
    rintro inside
    rcases List.mem_cons.mp inside with equal | inside
    · exact distinct equal.symm
    · exact outside inside
  · refine ⟨Function.update_self _ _ _,forward.restart ?_ ?_⟩
    · exact (Function.update_of_ne distinct _ _).trans (Function.update_self _ _ _)
    · intro y inside
      have apart : y ≠ head := fun equal => outside (equal ▸ inside)
      have other : y ≠ b := fun equal => absent (equal ▸ inside)
      exact (Function.update_of_ne apart _ _).trans (Function.update_of_ne other _ _)
  · rw [List.reverse_cons,path_append]
    constructor
    · have path := backward.redirect reverse b
      rw [← first] at path
      refine path.congr ?_
      intro y inside
      have other : y ≠ b := by
        rintro rfl
        rcases List.mem_cons.mp inside with equal | inside
        · exact distinct equal
        · exact absent (List.mem_reverse.mp inside)
      change Function.update (Function.update links.prev b head) (links.next head) b y =
        Function.update links.prev (links.next head) b y
      by_cases last : y = links.next head
      · rw [last,Function.update_self,Function.update_self]
      · rw [Function.update_of_ne last,Function.update_of_ne last,Function.update_of_ne other]
    · have apart : b ≠ links.next head := by
        rintro equal
        rw [first] at equal
        rcases List.mem_cons.mp (equal ▸ last_mem head order.reverse) with same | inside
        · exact distinct same
        · exact absent (List.mem_reverse.mp inside)
      exact (Function.update_of_ne apart _ _).trans (Function.update_self _ _ _)

end ring
end Lxos.Ring
