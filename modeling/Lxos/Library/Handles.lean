import Mathlib.Data.List.Count
import Mathlib.Data.Fintype.Card
import Mathlib.Data.Fintype.Basic

/-! Reference counts. A table of any index type counts, for each entry, the
handles that name it; the handles are listed in no particular order. -/
namespace Lxos.Handles
variable {ι : Type} [DecidableEq ι]

/-- Every entry's count is the number of handles to it. -/
def Counts (ref : ι → Int) (hs : List ι) : Prop := ∀ s, ref s = hs.count s

section counts
variable {ref ref' : ι → Int} {hs hs' : List ι} {s : ι}

theorem Counts.perm (counts : Counts ref hs) (same : hs.Perm hs') : Counts ref hs' :=
  fun s => by rw [counts s,same.count_eq]

theorem Counts.positive (counts : Counts ref hs) : 0 < ref s ↔ s ∈ hs := by
  rw [counts s,← List.count_pos_iff]
  omega

theorem Counts.congr (counts : Counts ref hs) (same : ∀ s, ref' s = ref s) : Counts ref' hs :=
  fun s => (same s).trans (counts s)

theorem Counts.add (counts : Counts ref hs) (here : ref' s = ref s + 1)
    (other : ∀ t, t ≠ s → ref' t = ref t) : Counts ref' (s :: hs) := by
  intro t
  by_cases same : t = s
  · subst t
    rw [here,counts s,List.count_cons_self]
    omega
  · rw [other t same,counts t,List.count_cons_of_ne (Ne.symm same)]

theorem Counts.drop (counts : Counts ref (s :: hs)) (here : ref' s = ref s - 1)
    (other : ∀ t, t ≠ s → ref' t = ref t) : Counts ref' hs := by
  intro t
  by_cases same : t = s
  · subst t
    rw [here,counts s,List.count_cons_self]
    omega
  · rw [other t same,counts t,List.count_cons_of_ne (Ne.symm same)]

/-- Fewer handles than entries leave an entry free. -/
theorem Counts.free [Fintype ι] (counts : Counts ref hs) (room : hs.length < Fintype.card ι) :
    ∃ s, ref s = 0 := by
  have fewer : hs.toFinset.card < (Finset.univ : Finset ι).card :=
    Nat.lt_of_le_of_lt hs.toFinset_card_le room
  obtain ⟨s,_,absent⟩ := Finset.exists_mem_notMem_of_card_lt_card fewer
  refine ⟨s,?_⟩
  rw [counts s,List.count_eq_zero_of_not_mem (fun h => absent (List.mem_toFinset.mpr h))]
  rfl

end counts
end Lxos.Handles
