import Lxos.Kernel.Extent
import Lxos.Kernel.View

/-! `deallocuvm` skips the addresses of a missing page table. A scan that visits
every page, and never skips, frees the same frames. -/
namespace Lxos.Kernel
open Lxos.Bytes Lxos.Fs Lxos.Outcome Lxos.Inventory

/-- One page is visited, and freed when it is present. -/
def visit (d : Page) (m : Vm) (n : Nat) : Vm :=
  match (walkpgdir m d (n * pgsize) false).1 with
  | none => m
  | some (pgtab,i) =>
    let pte := m.table pgtab i
    if pte.present then (kfree m pte.page).setEntry pgtab i .zero else m

/-- Every page from `first` up to `last` is visited. -/
def plainScan (d : Page) (m : Vm) (first last : Nat) : Vm := (List.range' first (last - first)).foldl (visit d) m

/-- The frame of a page that is present. -/
def mapped (m : Vm) (d : Page) (n : Nat) : Option Page := if (m.pte d n).present then some (m.pte d n).page else none

/-- The frames of the present pages from `first` up to `last`. -/
def frames (m : Vm) (d : Page) (first last : Nat) : List Page :=
  (List.range' first (last - first)).filterMap (mapped m d)

section scan
variable {d : Page} {m m' : Vm} {first last n k oldsz : Nat}

theorem plainScan_empty (m : Vm) (d : Page) (done : last ≤ first) : plainScan d m first last = m := by
  unfold plainScan
  rw [Nat.sub_eq_zero_of_le done]
  rfl

theorem plainScan_cons (m : Vm) (d : Page) (more : first < last) :
    plainScan d m first last = plainScan d (visit d m first) (first + 1) last := by
  unfold plainScan
  obtain ⟨c,rfl⟩ := Nat.exists_eq_add_of_lt more
  have left : first + c + 1 - first = c + 1 := by omega
  have right : first + c + 1 - (first + 1) = c := by omega
  rw [left,right,List.range'_succ,List.foldl_cons]

theorem plainScan_concat (m : Vm) (d : Page) (order : first ≤ last) :
    plainScan d m first (last + 1) = visit d (plainScan d m first last) last := by
  unfold plainScan
  obtain ⟨c,rfl⟩ := Nat.exists_eq_add_of_le order
  have left : first + c + 1 - first = c + 1 := by omega
  have right : first + c - first = c := by omega
  rw [left,right,List.range'_1_concat,List.foldl_append]
  rfl

theorem frames_concat (m : Vm) (d : Page) (order : first ≤ last) :
    frames m d first (last + 1) = frames m d first last ++ (mapped m d last).toList := by
  unfold frames
  obtain ⟨c,rfl⟩ := Nat.exists_eq_add_of_le order
  have left : first + c + 1 - first = c + 1 := by omega
  have right : first + c - first = c := by omega
  rw [left,right,List.range'_1_concat,List.filterMap_append]
  congr 1

theorem mem_frames {p : Page} : p ∈ frames m d first last ↔ ∃ n, first ≤ n ∧ n < last ∧ mapped m d n = some p := by
  simp only [frames,List.mem_filterMap,List.mem_range'_1]
  constructor
  · rintro ⟨n,inside,here⟩
    exact ⟨n,inside.1,by omega,here⟩
  · rintro ⟨n,lower,upper,here⟩
    exact ⟨n,⟨lower,by omega⟩,here⟩

theorem visit_absent (low : n < 1048576) (absent : (m.table d (n / 1024)).present = false) : visit d m n = m := by
  have walk : (walkpgdir m d (n * pgsize) false).1 = none := by
    change (walkpgdir m d (n * 4096) false).1 = none
    simp [walkpgdir,pdx_page low,absent]
  unfold visit
  rw [walk]

theorem visit_found (low : n < 1048576) (present : (m.table d (n / 1024)).present = true) : visit d m n =
    if (m.pte d n).present then (kfree m (m.pte d n).page).setEntry (m.table d (n / 1024)).page (n % 1024) .zero
    else m := by
  have walk : (walkpgdir m d (n * pgsize) false).1 = some ((m.table d (n / 1024)).page,n % 1024) := by
    change (walkpgdir m d (n * 4096) false).1 = _
    simp [walkpgdir,pdx_page low,ptx_page,present]
  unfold visit
  rw [walk,pte_present present]

/-- Nothing happens at the pages of a table that is missing. -/
theorem plainScan_skip (count : Nat) (absent : (m.table d (n / 1024)).present = false)
    (same : n % 1024 + count ≤ 1024) (low : n + count ≤ 1048576) :
    plainScan d m n last = plainScan d m (n + count) last := by
  induction count with
  | zero => rfl
  | succ count ih =>
    rw [ih (by omega) (by omega)]
    rcases Nat.lt_or_ge (n + count) last with more | done
    · have row : (n + count) / 1024 = n / 1024 := by omega
      rw [plainScan_cons m d more,visit_absent (by omega) (by rw [row]; exact absent)]
      rfl
    · rw [plainScan_empty m d done,plainScan_empty m d (by omega)]

theorem page_low (more : n * 4096 < oldsz) (limit : oldsz ≤ 2147483648) : n < 524288 := by
  have bound : n * 4096 < 524288 * 4096 := Nat.lt_of_lt_of_le more limit
  exact Nat.lt_of_mul_lt_mul_right bound

theorem page_inside (more : n * 4096 < oldsz) : n < pages oldsz := by
  unfold pages
  omega

theorem page_beyond (done : oldsz ≤ n * 4096) : pages oldsz ≤ n := by
  unfold pages
  omega

theorem next_page (low : n < 524288) : u32 (n * 4096 + pgsize) = (n + 1) * 4096 := by
  have width : n * 4096 + 4096 < 4294967296 := by omega
  exact (u32_of_lt width).trans (Nat.succ_mul n 4096).symm

/-- Behind a missing table the loop goes on at the next one. -/
theorem next_table (low : n < 524288) : u32 ((n / 1024 + 1) * 4194304) = (n + (1024 - n % 1024)) * 4096 := by
  rw [u32_of_lt (by omega)]
  omega

theorem row_rest (n : Nat) : 1 ≤ 1024 - n % 1024 ∧ n % 1024 + (1024 - n % 1024) ≤ 1024 ∧
    (n < 524288 → n + (1024 - n % 1024) ≤ 1048576) := by
  omega

theorem fuel_left {fuel count : Nat} (enough : oldsz ≤ (n + (fuel + 1)) * 4096) (forward : 1 ≤ count) :
    oldsz ≤ (n + count + fuel) * 4096 := by
  have further : n + (fuel + 1) ≤ n + count + fuel := by
    clear enough
    omega
  exact enough.trans (Nat.mul_le_mul_right 4096 further)

/-- The loop of `deallocuvm` is the plain scan. -/
theorem deallocuvmLoop_plain (limit : oldsz ≤ 2147483648) (fuel : Nat) (m : Vm) (enough : oldsz ≤ (n + fuel) * 4096) :
    deallocuvmLoop d oldsz (fuel + 1) m (n * 4096) = .ok (plainScan d m n (pages oldsz)) := by
  induction fuel generalizing m n with
  | zero =>
    have done : oldsz ≤ n * 4096 := enough
    unfold deallocuvmLoop
    rw [if_neg (Nat.not_lt.mpr done),plainScan_empty m d (page_beyond done)]
  | succ fuel ih =>
    unfold deallocuvmLoop
    rcases Nat.lt_or_ge (n * 4096) oldsz with more | done
    · rw [if_pos more]
      have user : n < 524288 := page_low more limit
      have low : n < 1048576 := Nat.lt_trans user (by decide)
      cases present : (m.table d (n / 1024)).present with
      | false =>
        have walk : (walkpgdir m d (n * 4096) false).1 = none := by simp [walkpgdir,pdx_page low,present]
        rw [walk]
        dsimp only
        rw [pdx_page low,next_table user,ih m (fuel_left enough (row_rest n).1)]
        exact congrArg _ (plainScan_skip _ present (row_rest n).2.1 ((row_rest n).2.2 user)).symm
      | true =>
        have walk : (walkpgdir m d (n * 4096) false).1 = some ((m.table d (n / 1024)).page,n % 1024) := by
          simp [walkpgdir,pdx_page low,ptx_page,present]
        rw [walk]
        dsimp only
        rw [next_page user,ih _ (fuel_left enough (le_refl 1)),plainScan_cons m d (page_inside more),visit_found low present,pte_present present]
    · rw [if_neg (Nat.not_lt.mpr done),plainScan_empty m d (page_beyond done)]

theorem deallocuvm_plain (m : Vm) (d : Page) {newsz : Nat} (order : newsz ≤ oldsz) (limit : oldsz ≤ 2147483648) :
    deallocuvm m d oldsz newsz = .ok (newsz,plainScan d m (pages newsz) (pages oldsz)) := by
  unfold deallocuvm
  rcases Nat.lt_or_ge newsz oldsz with more | done
  · have start : pgroundup newsz = pages newsz * 4096 := pgroundup_eq (by omega)
    rw [if_neg (by omega),start]
    have loop : deallocuvmLoop d oldsz 1048577 m (pages newsz * 4096) =
        .ok (plainScan d m (pages newsz) (pages oldsz)) := deallocuvmLoop_plain limit 1048576 m (limit.trans (by omega))
    rw [loop]
  · obtain rfl : newsz = oldsz := le_antisymm order done
    rw [if_pos (le_refl _),plainScan_empty m d (le_refl _)]

end scan

/-- The frames of the present pages from `first` up to `last` are free, each once, and
their entries are zero. Nothing else is touched. -/
structure Reclaimed (d : Page) (first last : Nat) (m m' : Vm) : Prop where
  freelist : m'.freelist = (frames m d first last).reverse ++ m.freelist
  single : (frames m d first last).Nodup
  entry : ∀ k < 1048576, m'.pte d k = if first ≤ k ∧ k < last ∧ (m.pte d k).present then .zero else m.pte d k
  directory : m'.table d = m.table d
  table : ∀ q ∉ frames m d first last, ∀ j, (∀ k, first ≤ k → k < last → (m.pte d k).present = true →
    ¬((m.table d (k / 1024)).page = q ∧ k % 1024 = j)) → m'.table q j = m.table q j
  frame : ∀ q ∉ frames m d first last, m'.frame q = m.frame q
  refused : m'.refused = m.refused

section reclaim
variable {d : Page} {m m' : Vm} {first last n : Nat}

/-- A frame at a user address is not the directory, and not one of its tables. -/
theorem frame_apart (nodup : (holdings m d).Nodup) (user : n < 524288) (present : (m.pte d n).present = true) :
    (m.pte d n).page ≠ d ∧ ∀ i < 1024, (m.table d i).present = true → (m.table d i).page ≠ (m.pte d n).page := by
  obtain ⟨inside,here⟩ := at_page user present
  refine ⟨at_ne_directory nodup inside here,fun i low there same => ?_⟩
  exact nomatch at_injective nodup (mem_table.mpr low) inside (at_table there) (same ▸ here)

theorem mapped_single (nodup : (holdings m d).Nodup) {k : Nat} {p : Page} (user : n < 524288) (user' : k < 524288)
    (here : mapped m d n = some p) (there : mapped m d k = some p) : n = k := by
  unfold mapped at here there
  split at here
  · rename_i present
    split at there
    · rename_i present'
      obtain ⟨inside,place⟩ := at_page user present
      obtain ⟨inside',place'⟩ := at_page user' present'
      have twice := at_injective nodup inside inside' (place.trans here) (place'.trans there)
      obtain ⟨row,column⟩ := Place.frame.inj twice
      omega
    · cases there
  · cases here

theorem reclaimed_empty (m : Vm) (d : Page) (n : Nat) : Reclaimed d n n m m := by
  have none_left : frames m d n n = [] := by simp [frames]
  refine ⟨?_,?_,fun k _ => ?_,rfl,fun _ _ _ _ => rfl,fun _ _ => rfl,rfl⟩
  · rw [none_left]
    rfl
  · rw [none_left]
    exact List.nodup_nil
  · exact (if_neg (by omega)).symm

/-- One page more is visited. -/
theorem Reclaimed.visit (nodup : (holdings m d).Nodup) (order : first ≤ last) (user : last < 524288)
    (before : Reclaimed d first last m m') : Reclaimed d first (last + 1) m (visit d m' last) := by
  have tree := tree_of_nodup nodup
  have here : m'.pte d last = m.pte d last := by
    rw [before.entry last (by omega)]
    exact if_neg (by omega)
  cases present : (m.pte d last).present with
  | false =>
    have still : Kernel.visit d m' last = m' := by
      cases there : (m'.table d (last / 1024)).present with
      | false => exact visit_absent (by omega) there
      | true => rw [visit_found (by omega) there,here,present,if_neg (by decide)]
    have nothing : frames m d first (last + 1) = frames m d first last := by
      rw [frames_concat m d order,mapped,present]
      exact List.append_nil _
    rw [still]
    refine ⟨?_,?_,fun k low => ?_,before.directory,fun q out j other => ?_,fun q out => ?_,before.refused⟩
    · rw [nothing]
      exact before.freelist
    · rw [nothing]
      exact before.single
    · rw [before.entry k low]
      rcases eq_or_ne k last with rfl | apart
      · rw [present,if_neg (by simp),if_neg (by simp)]
      · have same : k < last ↔ k < last + 1 := by omega
        simp only [same]
    · rw [nothing] at out
      exact before.table q out j fun k lower upper => other k lower (by omega)
    · rw [nothing] at out
      exact before.frame q out
  | true =>
    have there : (m.table d (last / 1024)).present = true := table_of_pte present
    have there' : (m'.table d (last / 1024)).present = true := by
      rw [before.directory]
      exact there
    obtain ⟨apart,tables⟩ := frame_apart nodup user present
    have more : frames m d first (last + 1) = frames m d first last ++ [(m.pte d last).page] := by
      rw [frames_concat m d order,mapped,present]
      rfl
    have outside (q : Page) (out : q ∉ frames m d first (last + 1)) :
        q ∉ frames m d first last ∧ q ≠ (m.pte d last).page := by
      rw [more,List.mem_append,List.mem_singleton] at out
      exact not_or.mp out
    have fresh : (m.pte d last).page ∉ frames m d first last := by
      intro inside
      obtain ⟨k,lower,upper,mapped_k⟩ := mem_frames.mp inside
      have := mapped_single nodup (by omega) user mapped_k (by rw [mapped,if_pos present])
      omega
    rw [visit_found (by omega) there',here,present,if_pos rfl,before.directory]
    generalize hm1 : kfree m' (m.pte d last).page = m1
    have away (q : Page) (h : q ≠ (m.pte d last).page) : m1.table q = m'.table q := by
      rw [← hm1]
      exact Function.update_of_ne h _ _
    have directory1 : m1.table d = m.table d := (away d apart.symm).trans before.directory
    have same (k : Nat) (low : k < 1048576) : m1.pte d k = m'.pte d k := by
      refine pte_congr (directory1.trans before.directory.symm) fun held => ?_
      rw [before.directory] at held ⊢
      rw [away _ (tables _ (row_lt low) held)]
    have written (k : Nat) (low : k < 1048576) :
        (m1.setEntry (m.table d (last / 1024)).page (last % 1024) .zero).pte d k =
          if k = last then .zero else m'.pte d k := by
      have tree1 := tree.congr directory1
      have row : (m1.table d (last / 1024)).present = true := by
        rw [directory1]
        exact there
      rw [← same k low,← directory1]
      exact pte_setEntry tree1 (by omega) row low
    refine ⟨?_,?_,fun k low => ?_,?_,fun q out j other => ?_,fun q out => ?_,?_⟩
    · rw [more,List.reverse_append,← hm1]
      exact congrArg ((m.pte d last).page :: ·) before.freelist
    · rw [more]
      exact List.nodup_append.mpr ⟨before.single,List.nodup_singleton _,fun p inside q one same =>
        fresh (List.mem_singleton.mp one ▸ same ▸ inside)⟩
    · rw [written k low,before.entry k low]
      rcases eq_or_ne k last with rfl | other
      · rw [if_pos rfl,if_pos ⟨order,Nat.lt_succ_self k,present⟩]
      · have same : k < last ↔ k < last + 1 := by omega
        rw [if_neg other]
        simp only [same]
    · rw [setEntry_page (tree.apart _ (row_lt (by omega)) there).symm]
      exact directory1
    · obtain ⟨out,different⟩ := outside q out
      have last_one := other last order (Nat.lt_succ_self last) present
      have old := before.table q out j fun k lower upper => other k lower (by omega)
      rw [← away q different] at old
      rcases eq_or_ne q (m.table d (last / 1024)).page with rfl | page
      · rw [setEntry_index fun column => last_one ⟨rfl,column.symm⟩]
        exact old
      · rw [setEntry_page page]
        exact old
    · obtain ⟨out,different⟩ := outside q out
      refine Eq.trans ?_ (before.frame q out)
      rw [← hm1]
      exact Function.update_of_ne different _ _
    · rw [← before.refused,← hm1]
      rfl

/-- What the plain scan does. -/
theorem plainScan_reclaims (nodup : (holdings m d).Nodup) (count : Nat) (user : first + count ≤ 524288) :
    Reclaimed d first (first + count) m (plainScan d m first (first + count)) := by
  induction count with
  | zero =>
    rw [Nat.add_zero,plainScan_empty m d (le_refl first)]
    exact reclaimed_empty m d first
  | succ count ih =>
    rw [← Nat.add_assoc,plainScan_concat m d (Nat.le_add_right first count)]
    exact (ih (by omega)).visit nodup (Nat.le_add_right first count) (by omega)

theorem pages_mono {a b : Nat} (order : a ≤ b) : pages a ≤ pages b := by
  unfold pages
  omega

theorem deallocuvm_reclaims {newsz oldsz : Nat} (nodup : (holdings m d).Nodup) (order : newsz ≤ oldsz)
    (limit : oldsz ≤ 2147483648) : ∃ m', deallocuvm m d oldsz newsz = .ok (newsz,m') ∧
      Reclaimed d (pages newsz) (pages oldsz) m m' := by
  refine ⟨_,deallocuvm_plain m d order limit,?_⟩
  obtain ⟨count,same⟩ := Nat.exists_eq_add_of_le (pages_mono order)
  rw [same]
  refine plainScan_reclaims nodup count ?_
  rw [← same]
  unfold pages
  omega

/-- `deallocuvm` does what a scan without skipping does: it frees the frames of the
present pages between `newsz`, rounded up, and `oldsz`, and clears their entries. -/
theorem deallocuvm_exact (m : Vm) (d : Page) (oldsz newsz : Nat) (order : newsz ≤ oldsz) (limit : oldsz ≤ kernbase) :
    deallocuvm m d oldsz newsz = .ok (newsz,plainScan d m (pages newsz) (pages oldsz)) ∧
      (∀ n, pages newsz ≤ n ∧ n < pages oldsz ↔ pgroundup newsz ≤ n * pgsize ∧ n * pgsize < oldsz) ∧
      ((holdings m d).Nodup →
        Reclaimed d (pages newsz) (pages oldsz) m (plainScan d m (pages newsz) (pages oldsz))) := by
  have plain := deallocuvm_plain m d order limit
  refine ⟨plain,fun n => ?_,fun nodup => ?_⟩
  · have bound : oldsz ≤ 2147483648 := limit
    have start : pgroundup newsz = pages newsz * 4096 := pgroundup_eq (by omega)
    rw [start]
    unfold pages
    change _ ↔ _ ≤ n * 4096 ∧ n * 4096 < oldsz
    omega
  · obtain ⟨m',ok,reclaimed⟩ := deallocuvm_reclaims nodup order limit
    obtain rfl : plainScan d m (pages newsz) (pages oldsz) = m' :=
      (Prod.mk.inj (Except.ok.inj (plain.symm.trans ok))).2
    exact reclaimed

end reclaim

/-- A directory with a table for the first and the third 4 MB, and one page in each. -/
def scattered : Vm where
  table
    | 5, 0 => ⟨true,true,true,6⟩
    | 5, 2 => ⟨true,true,true,7⟩
    | 6, 5 => ⟨true,true,true,8⟩
    | 7, 3 => ⟨true,true,true,9⟩
    | _, _ => .zero
  frame := fun _ => zeros
  freelist := []
  refused := []

theorem scattered_at {place : Place} {p : Page} (here : scattered.at 5 place = some p) :
    place = .table 0 ∧ p = 6 ∨ place = .table 2 ∧ p = 7 ∨ place = .frame 0 5 ∧ p = 8 ∨ place = .frame 2 3 ∧ p = 9 := by
  have row (i : Nat) : scattered.table 5 i = ⟨true,true,true,6⟩ ∧ i = 0 ∨ scattered.table 5 i = ⟨true,true,true,7⟩ ∧ i = 2 ∨
      scattered.table 5 i = .zero := by
    match i with
    | 0 => exact Or.inl ⟨rfl,rfl⟩
    | 1 => exact Or.inr (Or.inr rfl)
    | 2 => exact Or.inr (Or.inl ⟨rfl,rfl⟩)
    | _+3 => exact Or.inr (Or.inr rfl)
  have first (j : Nat) : scattered.table 6 j = ⟨true,true,true,8⟩ ∧ j = 5 ∨ scattered.table 6 j = .zero := by
    match j with
    | 5 => exact Or.inl ⟨rfl,rfl⟩
    | 0 | 1 | 2 | 3 | 4 | _+6 => exact Or.inr rfl
  have third (j : Nat) : scattered.table 7 j = ⟨true,true,true,9⟩ ∧ j = 3 ∨ scattered.table 7 j = .zero := by
    match j with
    | 3 => exact Or.inl ⟨rfl,rfl⟩
    | 0 | 1 | 2 | _+4 => exact Or.inr rfl
  cases place with
  | table i =>
    rcases row i with ⟨entry,rfl⟩ | ⟨entry,rfl⟩ | entry
    · simp_all [Vm.at]
    · simp_all [Vm.at]
    · simp [Vm.at,entry,Entry.zero] at here
  | frame i j =>
    rcases row i with ⟨entry,rfl⟩ | ⟨entry,rfl⟩ | entry
    · rcases first j with ⟨leaf,rfl⟩ | leaf
      · simp_all [Vm.at]
      · simp [Vm.at,entry,leaf,Entry.zero] at here
    · rcases third j with ⟨leaf,rfl⟩ | leaf
      · simp_all [Vm.at]
      · simp [Vm.at,entry,leaf,Entry.zero] at here
    · simp [Vm.at,entry,Entry.zero] at here

theorem scattered_nodup : (holdings scattered 5).Nodup := by
  refine List.nodup_cons.mpr ⟨fun inside => ?_,places_nodup.filterMap fun place other p here there => ?_⟩
  · obtain ⟨place,_,here⟩ := mem_inventory.mp inside
    rcases scattered_at here with h | h | h | h
    all_goals exact absurd h.2 (by decide)
  · rcases scattered_at here with h | h | h | h
    all_goals rcases scattered_at there with h' | h' | h' | h'
    all_goals
      first
      | exact h.1.trans h'.1.symm
      | exact absurd (h.2.symm.trans h'.2) (by decide)

theorem deallocuvm_exact_scattered : deallocuvm scattered 5 8404992 4097 = .ok (4097,plainScan 5 scattered 2 2052) ∧
    Reclaimed 5 2 2052 scattered (plainScan 5 scattered 2 2052) := by
  obtain ⟨plain,_,reclaimed⟩ := deallocuvm_exact scattered 5 8404992 4097 (by decide) (by decide)
  exact ⟨plain,reclaimed scattered_nodup⟩

end Lxos.Kernel
