import Mathlib.Data.List.Nodup
import Mathlib.Data.List.Perm.Basic

/-! What is held at a list of places, each of which holds one thing or nothing. A
change at one place is seen in the inventory as one item more or less. -/
namespace Lxos.Inventory
variable {ι β : Type} [DecidableEq ι] {places : List ι} {ref ref' : ι → Option β} {i j : ι} {b c : β}

def inventory (places : List ι) (ref : ι → Option β) : List β := places.filterMap ref

omit [DecidableEq ι] in
theorem mem_inventory : b ∈ inventory places ref ↔ ∃ i ∈ places, ref i = some b := List.mem_filterMap

omit [DecidableEq ι] in
theorem inventory_congr (same : ∀ j ∈ places, ref' j = ref j) : inventory places ref' = inventory places ref :=
  List.filterMap_congr same

theorem inventory_split (nodup : places.Nodup) (inside : i ∈ places) (ref : ι → Option β) : ∃ rest, ∀ ref',
    (∀ j ∈ places, j ≠ i → ref' j = ref j) → (inventory places ref').Perm ((ref' i).toList ++ rest) := by
  refine ⟨inventory (places.erase i) ref,fun ref' same => ?_⟩
  have order := (List.perm_cons_erase inside).filterMap ref'
  have others : (places.erase i).filterMap ref' = inventory (places.erase i) ref :=
    inventory_congr fun j member => same j (List.mem_of_mem_erase member) fun h => nodup.not_mem_erase (h ▸ member)
  rw [List.filterMap_cons,others] at order
  refine order.trans (List.Perm.of_eq ?_)
  cases ref' i with
  | none => rfl
  | some b => rfl

theorem inventory_put (nodup : places.Nodup) (inside : i ∈ places) (before : ref i = none) (after : ref' i = some b)
    (same : ∀ j ∈ places, j ≠ i → ref' j = ref j) : (inventory places ref').Perm (b :: inventory places ref) := by
  obtain ⟨rest,split⟩ := inventory_split nodup inside ref
  have old := split ref fun _ _ _ => rfl
  have new := split ref' same
  rw [before] at old
  rw [after] at new
  exact new.trans (old.symm.cons b)

theorem inventory_take (nodup : places.Nodup) (inside : i ∈ places) (before : ref i = some b) (after : ref' i = none)
    (same : ∀ j ∈ places, j ≠ i → ref' j = ref j) : (inventory places ref).Perm (b :: inventory places ref') :=
  inventory_put nodup inside after before fun j member h => (same j member h).symm

/-- Nothing is held at two places when no item occurs twice. -/
theorem inventory_injective (single : (inventory places ref).Nodup) (inside : i ∈ places)
    (inside' : j ∈ places) (here : ref i = some b) (there : ref j = some b) : i = j := by
  by_contra apart
  have order := (List.perm_cons_erase inside).filterMap ref
  rw [List.filterMap_cons,here] at order
  have twice := (order.nodup_iff.mp single).notMem
  exact twice (List.mem_filterMap.mpr ⟨j,(List.mem_erase_of_ne (Ne.symm apart)).mpr inside',there⟩)

end Lxos.Inventory
