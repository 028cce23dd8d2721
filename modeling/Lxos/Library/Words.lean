import Mathlib.Data.List.DropRight

/-! The words of a list, which separators divide. Runs of separators, and those at
either end, do not count. -/
namespace Lxos.Words
variable {α : Type} {p : α → Bool} {a : α} {l w : List α}

def words (p : α → Bool) (l : List α) : List (List α) := (l.splitOnP p).filter fun w => !w.isEmpty

theorem words_nil : words p [] = [] := by
  unfold words
  rw [List.splitOnP_nil]
  rfl

theorem words_word (plain : ∀ x ∈ w, p x = false) (some_letter : w ≠ []) : words p w = [w] := by
  unfold words
  rw [List.splitOnP_eq_singleton plain,List.filter_cons_of_pos (by simp [some_letter]),List.filter_nil]

theorem words_append (plain : ∀ x ∈ w, p x = false) (separator : p a = true) :
    words p (w ++ a :: l) = if w = [] then words p l else w :: words p l := by
  unfold words
  rw [List.splitOnP_append_cons_of_forall_mem plain a separator]
  split
  · rename_i empty
    rw [empty,List.filter_cons_of_neg (by simp)]
  · rename_i some_letter
    rw [List.filter_cons_of_pos (by simp [some_letter])]

theorem words_dropWhile : words p (l.dropWhile p) = words p l := by
  induction l with
  | nil => rfl
  | cons a l ih =>
    rw [List.dropWhile_cons]
    split
    · rename_i separator
      have same := @words_append α p a l [] (fun x h => nomatch h) separator
      rw [ih]
      exact same.symm
    · rfl

theorem plain_takeWhile {x : α} (inside : x ∈ l.takeWhile (!p ·)) : p x = false := by
  have := List.mem_takeWhile_imp inside
  simpa using this

/-- The first letter of a list, after its separators. -/
theorem dropWhile_first {s : List α} (rest : l.dropWhile p = a :: s) : p a = false := by
  have first := List.head?_dropWhile_not p l
  rw [rest] at first
  simpa using first

/-- The first word, and what follows it. -/
theorem words_cons (first : p a = false) : words p (a :: l) =
    (a :: l).takeWhile (!p ·) :: words p (((a :: l).dropWhile (!p ·)).dropWhile p) := by
  have plain (x : α) (inside : x ∈ (a :: l).takeWhile (!p ·)) := plain_takeWhile inside
  have some_letter : (a :: l).takeWhile (!p ·) ≠ [] := by
    rw [List.takeWhile_cons_of_pos (by simp [first])]
    exact List.cons_ne_nil _ _
  rw [words_dropWhile]
  have parts := @List.takeWhile_append_dropWhile α (!p ·) (a :: l)
  generalize (a :: l).takeWhile (!p ·) = w at plain some_letter parts ⊢
  cases tail : (a :: l).dropWhile (!p ·) with
  | nil =>
    rw [tail,List.append_nil] at parts
    rw [← parts,words_word plain some_letter,words_nil]
  | cons b t =>
    have separator : p b = true := by
      have last := dropWhile_first tail
      simpa using last
    rw [tail] at parts
    have empty := @words_append α p b t [] (fun x h => nomatch h) separator
    rw [← parts,words_append plain separator,if_neg some_letter]
    exact congrArg _ empty.symm

theorem words_empty : words p l = [] ↔ l.dropWhile p = [] := by
  rw [← words_dropWhile]
  cases rest : l.dropWhile p with
  | nil => exact iff_of_true words_nil rfl
  | cons a s =>
    rw [words_cons (dropWhile_first rest)]
    exact iff_of_false (List.cons_ne_nil _ _) (List.cons_ne_nil _ _)

/-- The words are made of the letters of the list. -/
theorem mem_of_mem_words (word : w ∈ words p l) (letter : a ∈ w) : a ∈ l := by
  have part := List.mem_of_mem_filter word
  clear word
  induction l generalizing w with
  | nil =>
    rw [List.splitOnP_nil] at part
    rw [List.mem_singleton.mp part] at letter
    cases letter
  | cons b l ih =>
    rw [List.splitOnP_cons_eq_if_modifyHead] at part
    split at part
    · rcases List.mem_cons.mp part with rfl | rest
      · cases letter
      · exact List.mem_cons_of_mem b (ih letter rest)
    · cases split : l.splitOnP p with
      | nil => exact absurd split (List.splitOnP_ne_nil p l)
      | cons v vs =>
        rw [split] at part ih
        rcases List.mem_cons.mp part with rfl | rest
        · rcases List.mem_cons.mp letter with rfl | letter
          · exact List.mem_cons_self
          · exact List.mem_cons_of_mem b (ih letter List.mem_cons_self)
        · exact List.mem_cons_of_mem b (ih letter (List.mem_cons_of_mem v rest))

end Lxos.Words
