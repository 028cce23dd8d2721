import Lxos.Kernel.Mapping

/-! An address space seen page by page: the entry that each virtual page has, with
the zero entry where there is no page table. The functions of `vm.c` are described
by what they do to these entries. -/
namespace Lxos.Kernel
open Lxos.Bytes Lxos.Fs Lxos.Outcome Lxos.Inventory

/-- The entry of virtual page `n`. -/
def Vm.pte (m : Vm) (d : Page) (n : Nat) : Entry :=
  if (m.table d (n / 1024)).present then m.table (m.table d (n / 1024)).page (n % 1024) else .zero

/-- The tables of a directory are pages of their own. -/
structure Tree (m : Vm) (d : Page) : Prop where
  apart : ∀ i < 1024, (m.table d i).present = true → (m.table d i).page ≠ d
  single : ∀ i < 1024, ∀ j < 1024, (m.table d i).present = true → (m.table d j).present = true →
    (m.table d i).page = (m.table d j).page → i = j

section view
variable {d p : Page} {x : List Page} {m m' : Vm} {i k n va : Nat} {e : Entry}

theorem pte_present (present : (m.table d (n / 1024)).present = true) :
    m.pte d n = m.table (m.table d (n / 1024)).page (n % 1024) := if_pos present

theorem pte_absent (absent : (m.table d (n / 1024)).present = false) : m.pte d n = .zero := if_neg (by simp [absent])

/-- A page that is present has a table. -/
theorem table_of_pte (present : (m.pte d n).present = true) : (m.table d (n / 1024)).present = true := by
  by_contra absent
  rw [pte_absent (Bool.eq_false_iff.mpr absent)] at present
  cases present

theorem pdx_page (low : n < 1048576) : pdx (n * 4096) = n / 1024 := by
  unfold pdx
  omega

theorem ptx_page : ptx (n * 4096) = n % 1024 := by
  unfold ptx
  omega

theorem row_lt (low : n < 1048576) : n / 1024 < 1024 := by omega

/-- The processor finds the page whose entry is present. -/
theorem translate_eq (low : va < 4294967296) : translate m d va =
    if (m.pte d (va / 4096)).present then some ((m.pte d (va / 4096)).page,va % 4096) else none := by
  have row : pdx va = va / 4096 / 1024 := by
    unfold pdx
    omega
  have column : ptx va = va / 4096 % 1024 := rfl
  simp only [translate,row,column,Vm.pte]
  by_cases present : (m.table d (va / 4096 / 1024)).present = true
  · simp [present]
  · simp [present,Entry.zero]

theorem at_frame_eq {j : Nat} (column : j < 1024) : m.at d (.frame i j) =
    if (m.pte d (i * 1024 + j)).present then some (m.pte d (i * 1024 + j)).page else none := by
  have row : (i * 1024 + j) / 1024 = i := by omega
  have rest : (i * 1024 + j) % 1024 = j := by omega
  simp only [Vm.at,Vm.pte,row,rest]
  by_cases present : (m.table d i).present = true
  · simp [present]
  · simp [present,Entry.zero]

/-- The page at a user address is the one that its entry names. -/
theorem at_page (user : n < 524288) (present : (m.pte d n).present = true) :
    Place.frame (n / 1024) (n % 1024) ∈ places ∧ m.at d (.frame (n / 1024) (n % 1024)) = some (m.pte d n).page := by
  have column : n % 1024 < 1024 := Nat.mod_lt _ (by decide)
  have whole : n / 1024 * 1024 + n % 1024 = n := by omega
  refine ⟨mem_frame.mpr ⟨by omega,column⟩,?_⟩
  rw [at_frame_eq column,whole,if_pos present]

theorem Tree.congr (tree : Tree m d) (same : m'.table d = m.table d) : Tree m' d := by
  refine ⟨fun i low => ?_,fun i hi j hj => ?_⟩
  · rw [same]
    exact tree.apart i low
  · rw [same]
    exact tree.single i hi j hj

theorem tree_of_nodup (nodup : (holdings m d).Nodup) : Tree m d := by
  refine ⟨fun i low present => at_ne_directory nodup (mem_table.mpr low) (at_table present),fun i hi j hj here there same => ?_⟩
  have twice := at_injective nodup (mem_table.mpr hi) (mem_table.mpr hj) (at_table here) (same ▸ at_table there)
  exact Place.table.inj twice

theorem pte_congr (directory : m'.table d = m.table d) (table : (m.table d (n / 1024)).present = true →
    m'.table (m.table d (n / 1024)).page (n % 1024) = m.table (m.table d (n / 1024)).page (n % 1024)) :
    m'.pte d n = m.pte d n := by
  unfold Vm.pte
  rw [directory]
  split
  · rename_i present
    exact table present
  · rfl

theorem pte_setEntry (tree : Tree m d) (low : n < 1048576) (present : (m.table d (n / 1024)).present = true)
    (bound : k < 1048576) : (m.setEntry (m.table d (n / 1024)).page (n % 1024) e).pte d k =
      if k = n then e else m.pte d k := by
  have apart := (tree.apart _ (row_lt low) present).symm
  have directory : (m.setEntry (m.table d (n / 1024)).page (n % 1024) e).table d = m.table d := setEntry_page apart
  split
  · rename_i same
    subst same
    rw [pte_present (by rw [directory]; exact present),directory]
    exact setEntry_same
  · rename_i other
    refine pte_congr directory fun there => ?_
    rcases eq_or_ne (k / 1024) (n / 1024) with row | row
    · rw [row]
      refine setEntry_index fun column => other ?_
      omega
    · rw [setEntry_page]
      exact fun same => row (tree.single _ (row_lt bound) _ (row_lt low) there present same)

/-- Page tables are added, made of free pages; every page keeps its entry. -/
structure Tabled (d : Page) (m m' : Vm) : Prop where
  entry : ∀ k < 1048576, m'.pte d k = m.pte d k
  kept : ∀ i < 1024, (m.table d i).present = true → m'.table d i = m.table d i
  free : m'.freelist ⊆ m.freelist
  frame : ∀ q ∉ m.freelist, m'.frame q = m.frame q

theorem Tabled.refl (d : Page) (m : Vm) : Tabled d m m :=
  ⟨fun _ _ => rfl,fun _ _ _ => rfl,fun _ => id,fun _ _ => rfl⟩

theorem pte_outside (same : ∀ q ∈ holdings m d, m'.table q = m.table q) (low : k < 1048576) : m'.pte d k = m.pte d k := by
  refine pte_congr (same d List.mem_cons_self) fun present => ?_
  rw [same _ (mem_holdings.mpr (Or.inr ⟨_,mem_table.mpr (row_lt low),at_table present⟩))]

/-- A cleared page becomes a page table. -/
theorem pte_setDirectory (tree : Tree m d) (apart : p ≠ d)
    (absent : (m.table d (n / 1024)).present = false) (clear : ∀ j, m.table p j = .zero) (bound : k < 1048576) :
    (m.setEntry d (n / 1024) ⟨true,true,true,p⟩).pte d k = m.pte d k := by
  rcases eq_or_ne (k / 1024) (n / 1024) with row | row
  · have before : m.pte d k = .zero := pte_absent (by rw [row]; exact absent)
    have row' : (m.setEntry d (n / 1024) ⟨true,true,true,p⟩).table d (k / 1024) = ⟨true,true,true,p⟩ := by
      rw [row,setEntry_same]
    rw [before,pte_present (by rw [row']),row',setEntry_page apart]
    exact clear _
  · unfold Vm.pte
    rw [setEntry_index row]
    split
    · rename_i present
      rw [setEntry_page (tree.apart _ (row_lt bound) present)]
    · rfl

/-- A page directory in order: its tables and itself are pages apart, and none of them is
free. A free list linked through the pages names none twice. -/
structure Planted (m : Vm) (d : Page) : Prop extends Tree m d where
  root : d ∉ m.freelist
  tables : ∀ i < 1024, (m.table d i).present = true → (m.table d i).page ∉ m.freelist
  linked : m.freelist.Nodup

theorem planted_of_pool (nodup : (pool x m d).Nodup) : Planted m d where
  toTree := tree_of_nodup (holdings_nodup nodup)
  root := fun inside => apart_of_pool nodup (Or.inr inside) List.mem_cons_self
  tables := fun _ low present inside =>
    apart_of_pool nodup (Or.inr inside) (mem_holdings.mpr (Or.inr ⟨_,mem_table.mpr low,at_table present⟩))
  linked := (List.nodup_append.mp (List.nodup_append.mp nodup).2.1).1

/-- `walkpgdir_cases` for a page number. -/
theorem walkpgdir_page (m : Vm) (d : Page) (low : n < 1048576) :
    (m.table d (n / 1024)).present = true ∧
      walkpgdir m d (n * 4096) true = (some ((m.table d (n / 1024)).page,n % 1024),m) ∨
    (m.table d (n / 1024)).present = false ∧
      ((∃ r, walkpgdir m d (n * 4096) true = (none,{ m with refused := r })) ∨
        ∃ p rest r, m.freelist = p :: rest ∧
          walkpgdir m d (n * 4096) true = (some (p,n % 1024),m.plant d (n / 1024) p rest r)) := by
  have cases := walkpgdir_cases m d (n * 4096)
  rw [pdx_page low,ptx_page] at cases
  obtain found | ⟨absent,⟨r,fail,_,_⟩ | ⟨p,rest,r,free,_,made⟩⟩ := cases
  · exact Or.inl found
  · exact Or.inr ⟨absent,Or.inl ⟨r,fail⟩⟩
  · exact Or.inr ⟨absent,Or.inr ⟨p,rest,r,free,made⟩⟩

section plant
variable {rest : List Page} {r : List Bool}

theorem plant_row (apart : p ≠ d) (other : i ≠ k) : (m.plant d k p rest r).table d i = m.table d i := by
  unfold Vm.plant
  rw [setEntry_index other]
  exact congrFun (Function.update_of_ne apart.symm _ _) i

theorem plant_tabled (planted : Planted m d) (free : m.freelist = p :: rest)
    (absent : (m.table d (n / 1024)).present = false) : Tabled d m (m.plant d (n / 1024) p rest r) := by
  have member : p ∈ m.freelist := free ▸ List.mem_cons_self
  have apart : p ≠ d := fun same => planted.root (same ▸ member)
  refine ⟨fun k bound => ?_,fun i _ there => ?_,?_,fun q out => ?_⟩
  · have cleared (q : Page) (other : q ≠ p) :
        (({ m with freelist := rest,refused := r } : Vm).clear p).table q = m.table q := Function.update_of_ne other _ _
    have zero (j : Nat) : (({ m with freelist := rest,refused := r } : Vm).clear p).table p j = .zero := by
      simp [Vm.clear]
    have directory := cleared d apart.symm
    unfold Vm.plant
    rw [pte_setDirectory (planted.toTree.congr directory) apart (by rw [directory]; exact absent) zero bound]
    refine pte_congr directory fun present => ?_
    have other : (m.table d (k / 1024)).page ≠ p := fun same => planted.tables _ (row_lt bound) present (same.symm ▸ member)
    rw [cleared _ other]
  · refine plant_row apart fun same => ?_
    rw [same,absent] at there
    cases there
  · change rest ⊆ m.freelist
    rw [free]
    exact List.subset_cons_self p rest
  · have other : q ≠ p := fun same => out (same.symm ▸ member)
    exact Function.update_of_ne other _ _

theorem plant_planted (planted : Planted m d) (free : m.freelist = p :: rest) :
    Planted (m.plant d k p rest r) d := by
  have member : p ∈ m.freelist := free ▸ List.mem_cons_self
  have apart : p ≠ d := fun same => planted.root (same ▸ member)
  have fewer : rest ⊆ m.freelist := free ▸ List.subset_cons_self p rest
  have fresh : p ∉ rest := (List.nodup_cons.mp (free ▸ planted.linked)).1
  have other {i : Nat} (low : i < 1024) (present : (m.table d i).present = true) : (m.table d i).page ≠ p :=
    fun same => planted.tables i low present (same ▸ member)
  refine ⟨⟨fun i low present => ?_,fun i hi j hj here there same => ?_⟩,fun inside => planted.root (fewer inside),
    fun i low present => ?_,(List.nodup_cons.mp (free ▸ planted.linked)).2⟩
  · rcases eq_or_ne i k with rfl | away
    · rw [plant_same]
      exact apart
    · rw [plant_row apart away] at present ⊢
      exact planted.apart i low present
  · rcases eq_or_ne i k with rfl | first
    · rcases eq_or_ne j i with rfl | second
      · rfl
      · rw [plant_row apart second] at there same
        rw [plant_same] at same
        exact absurd same.symm (other hj there)
    · rw [plant_row apart first] at here same
      rcases eq_or_ne j k with rfl | second
      · rw [plant_same] at same
        exact absurd same (other hi here)
      · rw [plant_row apart second] at there same
        exact planted.single i hi j hj here there same
  · rcases eq_or_ne i k with rfl | away
    · rw [plant_same]
      exact fresh
    · rw [plant_row apart away] at present ⊢
      exact fun inside => planted.tables i low present (fewer inside)

end plant

theorem walkpgdir_tabled (planted : Planted m d) (low : n < 1048576) :
    Tabled d m (walkpgdir m d (n * 4096) true).2 := by
  obtain ⟨_,found⟩ | ⟨absent,⟨r,fail⟩ | ⟨p,rest,r,free,made⟩⟩ := walkpgdir_page m d low
  · rw [found]
    exact Tabled.refl d m
  · rw [fail]
    exact ⟨fun _ _ => rfl,fun _ _ _ => rfl,fun _ => id,fun _ _ => rfl⟩
  · rw [made]
    exact plant_tabled planted free absent

theorem walkpgdir_planted (planted : Planted m d) (low : n < 1048576) :
    Planted (walkpgdir m d (n * 4096) true).2 d := by
  obtain ⟨_,found⟩ | ⟨_,⟨r,fail⟩ | ⟨p,rest,r,free,made⟩⟩ := walkpgdir_page m d low
  · rw [found]
    exact planted
  · rw [fail]
    exact ⟨planted.toTree.congr rfl,planted.root,planted.tables,planted.linked⟩
  · rw [made]
    exact plant_planted planted free

/-- What is found is the entry of the page, in the table that is there afterwards. -/
theorem walkpgdir_table {e : Page × Nat} (low : n < 1048576) (found : walkpgdir m d (n * 4096) true = (some e,m')) :
    (m'.table d (n / 1024)).present = true ∧ e = ((m'.table d (n / 1024)).page,n % 1024) := by
  obtain ⟨present,here⟩ | ⟨_,⟨r,fail⟩ | ⟨p,rest,r,_,made⟩⟩ := walkpgdir_page m d low
  · rw [here] at found
    obtain ⟨entry,rfl⟩ := Prod.mk.inj found
    exact ⟨present,(Option.some.inj entry).symm⟩
  · rw [fail] at found
    cases found
  · rw [made] at found
    obtain ⟨entry,rfl⟩ := Prod.mk.inj found
    rw [plant_same]
    exact ⟨rfl,(Option.some.inj entry).symm⟩

/-- Only the directory entry for the address may change. -/
theorem walkpgdir_row (planted : Planted m d) (low : n < 1048576) (other : i ≠ n / 1024) :
    (walkpgdir m d (n * 4096) true).2.table d i = m.table d i := by
  obtain ⟨_,found⟩ | ⟨_,⟨r,fail⟩ | ⟨p,rest,r,free,made⟩⟩ := walkpgdir_page m d low
  · rw [found]
  · rw [fail]
  · rw [made]
    exact plant_row (fun same => planted.root (same ▸ free ▸ List.mem_cons_self)) other

theorem Tabled.trans {m'' : Vm} (first : Tabled d m m') (second : Tabled d m' m'') : Tabled d m m'' where
  entry := fun k low => (second.entry k low).trans (first.entry k low)
  kept := fun i low present => by
    have same := first.kept i low present
    rw [← same] at present ⊢
    exact second.kept i low present
  free := List.Subset.trans second.free first.free
  frame := fun q out => (second.frame q fun inside => out (first.free inside)).trans (first.frame q out)

/-- `mappages` for one page writes its entry when there is a table for it. -/
theorem mappages_page (nodup : (pool x m d).Nodup) (user : n < 524288) (mem : Page) (writable able : Bool) :
    ∃ m1, Works d x x m m1 ∧ Tabled d m m1 ∧ (∀ i, i ≠ n / 1024 → m1.table d i = m.table d i) ∧
      (mappages m d (n * 4096) pgsize mem writable able = .ok (false,m1) ∨
        (m1.table d (n / 1024)).present = true ∧ mappages m d (n * 4096) pgsize mem writable able =
          .ok (true,m1.setEntry (m1.table d (n / 1024)).page (n % 1024) ⟨true,writable,able,mem⟩)) := by
  have low : n < 1048576 := by omega
  have last : pgrounddown (u32 (n * 4096 + pgsize + 4294967295)) = n * 4096 := by
    have : u32 (n * 4096 + 4096 + 4294967295) = n * 4096 + 4095 := by
      unfold u32
      omega
    change u32 (n * 4096 + 4096 + 4294967295) / 4096 * 4096 = n * 4096
    omega
  have start : pgrounddown (n * 4096) = n * 4096 := by
    change n * 4096 / 4096 * 4096 = n * 4096
    omega
  have planted := planted_of_pool nodup
  have tabled := walkpgdir_tabled planted low
  have rows := fun i => @walkpgdir_row d m i n planted low
  unfold mappages
  rw [last,start]
  unfold mappagesLoop
  obtain ⟨m1,works,_,_,⟨none_left,_,_⟩ | ⟨found,present⟩⟩ := walkpgdir_spec nodup (n * 4096)
  · rw [none_left] at tabled rows ⊢
    exact ⟨m1,works,tabled,rows,Or.inl rfl⟩
  · rw [pdx_page low] at present
    rw [found] at tabled rows ⊢
    refine ⟨m1,works,tabled,rows,Or.inr ⟨present,?_⟩⟩
    rw [pdx_page low,ptx_page]
    simp only [if_true]

end view

end Lxos.Kernel
