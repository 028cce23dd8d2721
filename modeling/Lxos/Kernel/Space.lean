import Lxos.Kernel.Memory
import Lxos.Library.Inventory
import Lxos.Library.Outcome
import Mathlib.Data.List.Perm.Subperm

/-! The pages of an address space: its page directory, the page tables, and the
frames that user addresses map. Work on an address space moves pages between it,
the free list and the hands of the function at work, and leaves all others alone. -/
namespace Lxos.Kernel
open Lxos.Bytes Lxos.Fs Lxos.Outcome Lxos.Inventory

/-- Where a directory refers to a page: entry `i` of the directory, or entry `j` of
the table there when the address is a user's. -/
inductive Place
  | table (i : Nat)
  | frame (i j : Nat)
deriving DecidableEq

def places : List Place :=
  (List.range 1024).map .table ++ (List.range 512).flatMap fun i => (List.range 1024).map (.frame i)

theorem mem_table {i : Nat} : Place.table i ∈ places ↔ i < 1024 := by
  simp [places]

theorem mem_frame {i j : Nat} : Place.frame i j ∈ places ↔ i < 512 ∧ j < 1024 := by
  simp [places]

theorem places_nodup : places.Nodup := by
  have table : ((List.range 1024).map Place.table).Nodup :=
    List.nodup_range.map fun a b same => Place.table.inj same
  have frames : ((List.range 512).flatMap fun i => (List.range 1024).map (Place.frame i)).Nodup := by
    refine List.nodup_flatMap.mpr ⟨fun i _ => List.nodup_range.map fun a b same => (Place.frame.inj same).2,?_⟩
    refine List.nodup_range.pairwise_of_forall_ne fun a _ b _ apart => ?_
    intro place left right
    obtain ⟨_,_,rfl⟩ := List.mem_map.mp left
    obtain ⟨_,_,same⟩ := List.mem_map.mp right
    exact apart (Place.frame.inj same).1.symm
  refine table.append frames fun place left right => ?_
  obtain ⟨_,_,rfl⟩ := List.mem_map.mp left
  obtain ⟨_,_,right⟩ := List.mem_flatMap.mp right
  obtain ⟨_,_,same⟩ := List.mem_map.mp right
  cases same

/-- The page that directory `d` refers to at a place. -/
def Vm.at (m : Vm) (d : Page) : Place → Option Page
  | .table i => if (m.table d i).present then some (m.table d i).page else none
  | .frame i j =>
    if (m.table d i).present ∧ (m.table (m.table d i).page j).present then some (m.table (m.table d i).page j).page
    else none

/-- All pages of the address space. -/
def holdings (m : Vm) (d : Page) : List Page := d :: inventory places (m.at d)

/-- The pages in hand, the free ones and those of the address space. -/
def pool (x : List Page) (m : Vm) (d : Page) : List Page := x ++ (m.freelist ++ holdings m d)

/-- Work on an address space, from pages `x` in hand to pages `x'`. -/
structure Works (d : Page) (x x' : List Page) (m m' : Vm) : Prop where
  conserve : (pool x' m' d).Perm (pool x m d)
  table : ∀ p ∉ pool x m d, m'.table p = m.table p
  frame : ∀ p ∉ pool x m d, m'.frame p = m.frame p
  willing : m.refused = [] → m'.refused = []

section works
variable {d p : Page} {x x' x'' : List Page} {m m' m'' : Vm} {i j : Nat}

theorem Works.refl (d : Page) (x : List Page) (m : Vm) : Works d x x m m :=
  ⟨List.Perm.refl _,fun _ _ => rfl,fun _ _ => rfl,id⟩

theorem Works.trans (first : Works d x x' m m') (second : Works d x' x'' m' m'') : Works d x x'' m m'' where
  conserve := second.conserve.trans first.conserve
  table := fun p away =>
    (second.table p fun h => away (first.conserve.mem_iff.mp h)).trans (first.table p away)
  frame := fun p away =>
    (second.frame p fun h => away (first.conserve.mem_iff.mp h)).trans (first.frame p away)
  willing := second.willing ∘ first.willing

theorem Works.nodup (works : Works d x x' m m') (nodup : (pool x m d).Nodup) : (pool x' m' d).Nodup :=
  works.conserve.nodup_iff.mpr nodup

theorem mem_pool : p ∈ pool x m d ↔ p ∈ x ∨ p ∈ m.freelist ∨ p ∈ holdings m d := by
  simp [pool]

theorem mem_holdings : p ∈ holdings m d ↔ p = d ∨ ∃ place ∈ places, m.at d place = some p := by
  rw [holdings,List.mem_cons,mem_inventory]

theorem holdings_nodup (nodup : (pool x m d).Nodup) : (holdings m d).Nodup :=
  (List.nodup_append.mp (List.nodup_append.mp nodup).2.1).2.1

theorem apart_of_pool (nodup : (pool x m d).Nodup) (loose : p ∈ x ∨ p ∈ m.freelist) : p ∉ holdings m d := by
  intro inside
  obtain ⟨_,rest,apart⟩ := List.nodup_append.mp nodup
  rcases loose with hand | free
  · exact apart p hand p (List.mem_append_right _ inside) rfl
  · exact (List.nodup_append.mp rest).2.2 p free p inside rfl

theorem at_ne_directory (nodup : (holdings m d).Nodup) {place : Place} (inside : place ∈ places)
    (here : m.at d place = some p) : p ≠ d := by
  rintro rfl
  exact (List.nodup_cons.mp nodup).1 (mem_inventory.mpr ⟨place,inside,here⟩)

theorem at_injective (nodup : (holdings m d).Nodup) {place place' : Place} (inside : place ∈ places)
    (inside' : place' ∈ places) (here : m.at d place = some p) (there : m.at d place' = some p) : place = place' :=
  inventory_injective (List.nodup_cons.mp nodup).2 inside inside' here there

theorem at_table (h : (m.table d i).present = true) : m.at d (.table i) = some (m.table d i).page := if_pos h

theorem at_frame_none (h : (m.table d i).present = false) : m.at d (.frame i j) = none :=
  if_neg (by simp [h])

/-- What a directory refers to depends on the directory and its tables. -/
theorem at_congr (directory : m'.table d = m.table d) (tables : ∀ i < 1024, (m.table d i).present = true →
    m'.table (m.table d i).page = m.table (m.table d i).page) {place : Place} (inside : place ∈ places) :
    m'.at d place = m.at d place := by
  cases place with
  | table i => simp only [Vm.at,directory]
  | frame i j =>
    simp only [Vm.at,directory]
    cases present : (m.table d i).present with
    | false => simp
    | true =>
      have low := (mem_frame.mp inside).1
      rw [tables i (by omega) present]

theorem at_outside (same : ∀ p ∈ holdings m d, m'.table p = m.table p) {place : Place} (inside : place ∈ places) :
    m'.at d place = m.at d place :=
  at_congr (same d List.mem_cons_self)
    (fun i low present => same _ (mem_holdings.mpr (Or.inr ⟨.table i,mem_table.mpr low,at_table present⟩))) inside

theorem holdings_outside (same : ∀ p ∈ holdings m d, m'.table p = m.table p) : holdings m' d = holdings m d := by
  unfold holdings
  rw [inventory_congr fun place inside => at_outside same inside]

end works

theorem pdx_lt (va : Nat) : pdx va < 1024 := Nat.mod_lt _ (by decide)

theorem ptx_lt (va : Nat) : ptx va < 1024 := Nat.mod_lt _ (by decide)

theorem pdx_user {va : Nat} (low : va < 2147483648) : pdx va < 512 := by
  unfold pdx
  omega

section allocation
variable {d p : Page} {x x' : List Page} {m m' : Vm} {i j : Nat}

/-- No page is to be had. -/
def Starved (m : Vm) : Prop := m.refused.head? = some true ∨ m.freelist = []

/-- `kalloc` takes a page from the free list, or nothing. -/
theorem kalloc_cases (m : Vm) : (∃ r, kalloc m = (none,{ m with refused := r }) ∧ Starved m ∧
      (m.refused = [] → r = [])) ∨
    ∃ p rest r, m.freelist = p :: rest ∧ kalloc m = (some p,{ m with freelist := rest,refused := r }) ∧
      (m.refused = [] → r = []) := by
  obtain ⟨table,frame,freelist,refused⟩ := m
  unfold kalloc
  split
  · rename_i rest refusal
    exact Or.inl ⟨rest,rfl,Or.inl (congrArg List.head? refusal),fun willing => nomatch refusal.symm.trans willing⟩
  · cases freelist with
    | nil => exact Or.inl ⟨_,rfl,Or.inr rfl,congrArg List.tail⟩
    | cons p rest => exact Or.inr ⟨p,rest,_,rfl,rfl,congrArg List.tail⟩

theorem kalloc_works {rest : List Page} {r : List Bool} (free : m.freelist = p :: rest)
    (willing : m.refused = [] → r = []) : Works d x (p :: x) m { m with freelist := rest,refused := r } := by
  refine ⟨?_,fun _ _ => rfl,fun _ _ => rfl,willing⟩
  have same : holdings { m with freelist := rest,refused := r } d = holdings m d := rfl
  rw [pool,pool,free,same]
  exact List.perm_middle.symm

theorem refused_works {r : List Bool} (willing : m.refused = [] → r = []) : Works d x x m { m with refused := r } :=
  ⟨List.Perm.refl _,fun _ _ => rfl,fun _ _ => rfl,willing⟩

theorem kfree_works (nodup : (pool (p :: x) m d).Nodup) : Works d (p :: x) x m (kfree m p) := by
  have apart : p ∉ holdings m d := apart_of_pool nodup (Or.inl List.mem_cons_self)
  have away (q : Page) (h : q ≠ p) : (kfree m p).table q = m.table q := Function.update_of_ne h _ _
  have same : holdings (kfree m p) d = holdings m d :=
    holdings_outside fun q inside => away q fun h => apart (h ▸ inside)
  refine ⟨?_,fun q out => away q ?_,fun q out => Function.update_of_ne ?_ _ _,id⟩
  · rw [pool,pool,same]
    exact List.perm_middle
  · rintro rfl
    exact out (List.mem_append_left _ List.mem_cons_self)
  · rintro rfl
    exact out (List.mem_append_left _ List.mem_cons_self)

theorem clear_works (nodup : (pool x m d).Nodup) (hand : p ∈ x) : Works d x x m (m.clear p) := by
  have apart : p ∉ holdings m d := apart_of_pool nodup (Or.inl hand)
  have away (q : Page) (h : q ≠ p) : (m.clear p).table q = m.table q := Function.update_of_ne h _ _
  have same : holdings (m.clear p) d = holdings m d :=
    holdings_outside fun q inside => away q fun h => apart (h ▸ inside)
  refine ⟨?_,fun q out => away q ?_,fun q out => Function.update_of_ne ?_ _ _,id⟩
  · rw [pool,pool,same]
    rfl
  · rintro rfl
    exact out (List.mem_append_left _ hand)
  · rintro rfl
    exact out (List.mem_append_left _ hand)

/-- The bytes of a page at hand, free or of the address space are written. -/
theorem setFrame_works (inside : p ∈ pool x m d) (b : Buffer) : Works d x x m (m.setFrame p b) := by
  refine ⟨List.Perm.refl _,fun _ _ => rfl,fun q out => Function.update_of_ne ?_ _ _,id⟩
  rintro rfl
  exact out inside

end allocation

section entries
variable {d p q : Page} {x x' : List Page} {m m' : Vm} {i j : Nat} {e : Entry} {place : Place}

theorem setEntry_same : (m.setEntry p j e).table p j = e := by
  simp [Vm.setEntry]

theorem setEntry_index {l : Nat} (apart : l ≠ j) : (m.setEntry p j e).table p l = m.table p l := by
  simp [Vm.setEntry,apart]

theorem setEntry_page (apart : q ≠ p) : (m.setEntry p j e).table q = m.table q := Function.update_of_ne apart _ _

theorem setEntry_at (nodup : (holdings m d).Nodup) (low : i < 1024) (present : (m.table d i).present = true)
    (inside : place ∈ places) : (m.setEntry (m.table d i).page j e).at d place =
      if place = .frame i j then (if e.present then some e.page else none) else m.at d place := by
  have here := mem_table.mpr low
  have tab := at_table present
  have apart : d ≠ (m.table d i).page := (at_ne_directory nodup here tab).symm
  cases place with
  | table l => simp [Vm.at,setEntry_page apart]
  | frame k l =>
    simp only [Vm.at,setEntry_page apart]
    rcases eq_or_ne k i with rfl | row
    · rcases eq_or_ne l j with rfl | column
      · simp [setEntry_same,present]
      · simp [setEntry_index column,column]
    · have other : Place.frame k l ≠ .frame i j := fun same => row (Place.frame.inj same).1
      rw [if_neg other]
      cases there : (m.table d k).present with
      | false => simp
      | true =>
        have bound : k < 1024 := by
          have := (mem_frame.mp inside).1
          omega
        have distinct : (m.table d k).page ≠ (m.table d i).page := by
          intro same
          have twice := at_injective nodup (mem_table.mpr bound) here (at_table there) (same ▸ tab)
          exact row (Place.table.inj twice)
        rw [setEntry_page distinct]

/-- Writing an entry of one of its tables is work on the address space. -/
theorem setEntry_outside (low : i < 1024) (present : (m.table d i).present = true) (out : q ∉ pool x m d) :
    (m.setEntry (m.table d i).page j e).table q = m.table q := by
  refine setEntry_page ?_
  rintro rfl
  exact out (mem_pool.mpr (Or.inr (Or.inr (mem_holdings.mpr (Or.inr ⟨_,mem_table.mpr low,at_table present⟩)))))

/-- A page of the address space was in hand before. -/
theorem pool_gain (free : m'.freelist = m.freelist) (gain : (holdings m' d).Perm (p :: holdings m d)) :
    (pool x m' d).Perm (pool (p :: x) m d) := by
  rw [pool,pool,free]
  refine (((gain.append_left m.freelist).trans List.perm_middle).append_left x).trans ?_
  exact List.perm_middle

theorem map_works (nodup : (holdings m d).Nodup) (low : i < 512) (index : j < 1024)
    (present : (m.table d i).present = true) (vacant : m.at d (.frame i j) = none) (new : e.present = true) :
    Works d (e.page :: x) x m (m.setEntry (m.table d i).page j e) := by
  have changed := fun {place} => @setEntry_at d m i j e place nodup (by omega) present
  refine ⟨pool_gain rfl ?_,fun q out => setEntry_outside (by omega) present out,fun _ _ => rfl,id⟩
  have here := mem_frame.mpr ⟨low,index⟩
  have more : (inventory places ((m.setEntry (m.table d i).page j e).at d)).Perm
      (e.page :: inventory places (m.at d)) := by
    refine inventory_put places_nodup here vacant ?_ fun place inside apart => ?_
    · rw [changed here,if_pos rfl,if_pos new]
    · rw [changed inside,if_neg apart]
  exact (more.cons d).trans (List.Perm.swap _ _ _)

theorem unmap_works (nodup : (holdings m d).Nodup) (low : i < 512) (index : j < 1024)
    (present : (m.table d i).present = true) (mapped : m.at d (.frame i j) = some p) (new : e.present = false) :
    Works d x (p :: x) m (m.setEntry (m.table d i).page j e) := by
  have changed := fun {place} => @setEntry_at d m i j e place nodup (by omega) present
  have here := mem_frame.mpr ⟨low,index⟩
  have less : (inventory places (m.at d)).Perm
      (p :: inventory places ((m.setEntry (m.table d i).page j e).at d)) := by
    refine inventory_take places_nodup here mapped ?_ fun place inside apart => ?_
    · rw [changed here,if_pos rfl,new]
      rfl
    · rw [changed inside,if_neg apart]
  have gain : (holdings m d).Perm (p :: holdings (m.setEntry (m.table d i).page j e) d) :=
    (less.cons d).trans (List.Perm.swap _ _ _)
  have free : m.freelist = (m.setEntry (m.table d i).page j e).freelist := rfl
  exact ⟨(pool_gain free gain).symm,fun q out => setEntry_outside (by omega) present out,fun _ _ => rfl,id⟩

/-- An entry for kernel addresses refers to no page of the address space. -/
theorem kernel_works (nodup : (holdings m d).Nodup) (high : 512 ≤ i) (low : i < 1024)
    (present : (m.table d i).present = true) : Works d x x m (m.setEntry (m.table d i).page j e) := by
  refine ⟨?_,fun q out => setEntry_outside low present out,fun _ _ => rfl,id⟩
  have same : inventory places ((m.setEntry (m.table d i).page j e).at d) = inventory places (m.at d) := by
    refine inventory_congr fun place inside => ?_
    rw [setEntry_at nodup low present inside]
    refine if_neg ?_
    rintro rfl
    have := (mem_frame.mp inside).1
    omega
  have free : (m.setEntry (m.table d i).page j e).freelist = m.freelist := rfl
  rw [pool,pool,free,holdings,same]
  rfl

/-- A cleared page in hand becomes a page table. -/
theorem setDirectory_at (nodup : (holdings m d).Nodup) (inside : place ∈ places) (apart : p ≠ d) (absent : (m.table d i).present = false)
    (clear : ∀ j, (m.table p j).present = false) : (m.setEntry d i ⟨true,true,true,p⟩).at d place =
      if place = .table i then some p else m.at d place := by
  cases place with
  | table l =>
    rcases eq_or_ne l i with rfl | other
    · simp [Vm.at,setEntry_same]
    · simp [Vm.at,setEntry_index other,other]
  | frame k l =>
    rcases eq_or_ne k i with rfl | other
    · simp [Vm.at,setEntry_same,setEntry_page apart,clear,absent]
    · simp only [Vm.at,setEntry_index other,reduceCtorEq,if_false]
      cases there : (m.table d k).present with
      | false => simp
      | true =>
        have low := (mem_frame.mp inside).1
        rw [setEntry_page (at_ne_directory nodup (mem_table.mpr (by omega)) (at_table there))]

theorem table_works (nodup : (pool (p :: x) m d).Nodup) (low : i < 1024) (absent : (m.table d i).present = false)
    (clear : ∀ j, (m.table p j).present = false) : Works d (p :: x) x m (m.setEntry d i ⟨true,true,true,p⟩) := by
  have single := holdings_nodup nodup
  have apart : p ≠ d := by
    rintro rfl
    exact apart_of_pool nodup (Or.inl List.mem_cons_self) List.mem_cons_self
  have here := mem_table.mpr low
  have changed := fun {place} inside => @setDirectory_at d p m i place single inside apart absent clear
  refine ⟨pool_gain rfl ?_,fun q out => setEntry_page ?_,fun _ _ => rfl,id⟩
  · have more : (inventory places ((m.setEntry d i ⟨true,true,true,p⟩).at d)).Perm (p :: inventory places (m.at d)) := by
      refine inventory_put places_nodup here ?_ ?_ fun place inside apart => ?_
      · simp [Vm.at,absent]
      · rw [changed here,if_pos rfl]
      · rw [changed inside,if_neg apart]
    exact (more.cons d).trans (List.Perm.swap _ _ _)
  · rintro rfl
    exact out (mem_pool.mpr (Or.inr (Or.inr List.mem_cons_self)))

end entries

end Lxos.Kernel
