import Lxos.Kernel.Space
import Mathlib.Order.Interval.Finset.Nat

/-! What the functions of `vm.c` do to the pages of one address space: none is
lost or taken twice, wherever an allocation fails. -/
namespace Lxos.Kernel
open Lxos.Bytes Lxos.Fs Lxos.Outcome Lxos.Inventory

/-- Kernel addresses are not for the user. -/
def Sealed (m : Vm) (d : Page) : Prop :=
  ∀ i, 512 ≤ i → i < 1024 → (m.table d i).present = true → ∀ j, (m.table (m.table d i).page j).user = false

/-- The frames at user addresses stay, and so does the seal. -/
structure Steady (d : Page) (m m' : Vm) : Prop where
  frames : ∀ i < 512, ∀ j < 1024, m'.at d (.frame i j) = m.at d (.frame i j)
  sealing : Sealed m d → Sealed m' d

section steady
variable {d p : Page} {x x' : List Page} {m m' m'' : Vm} {i j : Nat} {e : Entry}

theorem Steady.refl (d : Page) (m : Vm) : Steady d m m := ⟨fun _ _ _ _ => rfl,id⟩

theorem Steady.trans (first : Steady d m m') (second : Steady d m' m'') : Steady d m m'' :=
  ⟨fun i hi j hj => (second.frames i hi j hj).trans (first.frames i hi j hj),second.sealing ∘ first.sealing⟩

/-- Changes outside the address space. -/
theorem Steady.outside (same : ∀ q ∈ holdings m d, m'.table q = m.table q) : Steady d m m' := by
  refine ⟨fun i hi j hj => at_outside same (mem_frame.mpr ⟨hi,hj⟩),fun sealing i high low present j => ?_⟩
  have directory := same d List.mem_cons_self
  rw [directory] at present ⊢
  rw [same _ (mem_holdings.mpr (Or.inr ⟨_,mem_table.mpr low,at_table present⟩))]
  exact sealing i high low present j

theorem Steady.loose (nodup : (pool x m d).Nodup) (hand : p ∈ x) (same : ∀ q, q ≠ p → m'.table q = m.table q) :
    Steady d m m' :=
  Steady.outside fun q inside => same q fun h => apart_of_pool nodup (Or.inl hand) (h ▸ inside)

/-- A table entry that does not open kernel addresses to the user. -/
theorem setEntry_sealed (nodup : (holdings m d).Nodup) (low : i < 1024) (present : (m.table d i).present = true)
    (closed : i < 512 ∨ e.user = false) (sealing : Sealed m d) : Sealed (m.setEntry (m.table d i).page j e) d := by
  have tab := at_table present
  have here := mem_table.mpr low
  have apart : d ≠ (m.table d i).page := (at_ne_directory nodup here tab).symm
  intro k high bound there l
  rw [setEntry_page apart] at there ⊢
  rcases eq_or_ne k i with rfl | other
  · rcases eq_or_ne l j with rfl | column
    · rw [setEntry_same]
      exact closed.resolve_left (by omega)
    · rw [setEntry_index column]
      exact sealing k high bound there l
  · have distinct : (m.table d k).page ≠ (m.table d i).page := by
      intro same
      have twice := at_injective nodup (mem_table.mpr bound) here (at_table there) (same ▸ tab)
      exact other (Place.table.inj twice)
    rw [setEntry_page distinct]
    exact sealing k high bound there l

end steady

/-- The kernel entries of a directory that refer to no table. -/
def missing (m : Vm) (d : Page) : Finset Nat := (Finset.Ico 512 1024).filter fun i => (m.table d i).present = false

/-- No allocation is refused, and there is a page for every kernel table that is missing. -/
structure Plenty (d : Page) (m : Vm) : Prop where
  willing : m.refused = []
  enough : (missing m d).card ≤ m.freelist.length

section walk
variable {d : Page} {x : List Page} {m : Vm} {i : Nat}

theorem mem_missing (kernel : 512 ≤ i) (low : i < 1024) (absent : (m.table d i).present = false) : i ∈ missing m d :=
  Finset.mem_filter.mpr ⟨Finset.mem_Ico.mpr ⟨kernel,low⟩,absent⟩

theorem Plenty.fed (plenty : Plenty d m) (kernel : 512 ≤ i) (low : i < 1024)
    (absent : (m.table d i).present = false) : ¬Starved m := by
  have one := Finset.card_pos.mpr ⟨i,mem_missing kernel low absent⟩
  rintro (refusal | empty)
  · rw [plenty.willing] at refusal
    cases refusal
  · have enough := plenty.enough
    rw [empty] at enough
    exact absurd one (Nat.not_lt_of_le enough)

/-- A table is made with one of the free pages. -/
theorem Plenty.table {m' : Vm} {e : Entry} (plenty : Plenty d m) (kernel : 512 ≤ i) (low : i < 1024)
    (absent : (m.table d i).present = false) (willing : m.refused = [] → m'.refused = [])
    (length : m'.freelist.length + 1 = m.freelist.length) (directory : m'.table d = Function.update (m.table d) i e)
    (present : e.present = true) : Plenty d m' := by
  have one := mem_missing kernel low absent
  have less : missing m' d = (missing m d).erase i := by
    ext j
    rcases eq_or_ne j i with rfl | other
    · simp [missing,directory,present]
    · simp [missing,directory,other]
  refine ⟨willing plenty.willing,?_⟩
  rw [less,Finset.card_erase_of_mem one]
  have := plenty.enough
  omega

/-- The first free page, cleared, becomes the table of row `i`. -/
def Vm.plant (m : Vm) (d : Page) (i : Nat) (p : Page) (rest : List Page) (r : List Bool) : Vm :=
  (({ m with freelist := rest,refused := r } : Vm).clear p).setEntry d i ⟨true,true,true,p⟩

theorem plant_same {rest : List Page} {r : List Bool} : (m.plant d i p rest r).table d i = ⟨true,true,true,p⟩ :=
  setEntry_same

/-- The table is there, or it is made of a free page, or there is none. -/
theorem walkpgdir_cases (m : Vm) (d : Page) (va : Nat) :
    (m.table d (pdx va)).present = true ∧ walkpgdir m d va true = (some ((m.table d (pdx va)).page,ptx va),m) ∨
    (m.table d (pdx va)).present = false ∧
      ((∃ r, walkpgdir m d va true = (none,{ m with refused := r }) ∧ Starved m ∧ (m.refused = [] → r = [])) ∨
        ∃ p rest r, m.freelist = p :: rest ∧ (m.refused = [] → r = []) ∧
          walkpgdir m d va true = (some (p,ptx va),m.plant d (pdx va) p rest r)) := by
  unfold walkpgdir
  rcases Bool.eq_false_or_eq_true (m.table d (pdx va)).present with present | absent
  · exact Or.inl ⟨present,if_pos present⟩
  · simp only [absent,Bool.false_eq_true,if_false,if_true,false_and,false_or,true_and]
    rcases kalloc_cases m with ⟨r,none_left,starved,willing⟩ | ⟨p,rest,r,free,taken,willing⟩
    · exact Or.inl ⟨r,by rw [none_left],starved,willing⟩
    · exact Or.inr ⟨p,rest,r,free,willing,by rw [taken]; rfl⟩

/-- `walkpgdir` finds a table or makes one, unless there is no page for it. -/
theorem walkpgdir_spec (nodup : (pool x m d).Nodup) (va : Nat) : ∃ m', Works d x x m m' ∧ Steady d m m' ∧
    (512 ≤ pdx va → Plenty d m → Plenty d m') ∧
    (walkpgdir m d va true = (none,m') ∧ Starved m ∧ (m.table d (pdx va)).present = false ∨
      walkpgdir m d va true = (some ((m'.table d (pdx va)).page,ptx va),m') ∧ (m'.table d (pdx va)).present = true) := by
  obtain ⟨present,found⟩ | ⟨absent,⟨r,fail,starved,willing⟩ | ⟨p,rest,r,free,willing,made⟩⟩ := walkpgdir_cases m d va
  · exact ⟨m,Works.refl d x m,Steady.refl d m,fun _ => id,Or.inr ⟨found,present⟩⟩
  · refine ⟨_,refused_works willing,Steady.outside fun _ _ => rfl,fun kernel plenty => ?_,Or.inl ⟨fail,starved,absent⟩⟩
    exact absurd starved (plenty.fed kernel (pdx_lt va) absent)
  · have take := kalloc_works (d := d) (x := x) free willing
    generalize hm1 : ({ m with freelist := rest,refused := r } : Vm) = m1 at take
    have nodup1 := take.nodup nodup
    have wipe := clear_works (p := p) nodup1 List.mem_cons_self
    have nodup2 := wipe.nodup nodup1
    have table1 : m1.table = m.table := by rw [← hm1]
    have apart : d ≠ p := by
      rintro rfl
      exact apart_of_pool nodup1 (Or.inl List.mem_cons_self) List.mem_cons_self
    have directory : (m1.clear p).table d = m.table d := by
      rw [← table1]
      exact Function.update_of_ne apart _ _
    have vacant : ((m1.clear p).table d (pdx va)).present = false := by
      rw [directory]
      exact absent
    have zero (j : Nat) : ((m1.clear p).table p j) = Entry.zero := by
      simp [Vm.clear]
    have link := table_works nodup2 (pdx_lt va) vacant fun j => by rw [zero]; rfl
    refine ⟨_,(take.trans wipe).trans link,?_,fun kernel plenty => ?_,Or.inr ⟨?_,?_⟩⟩
    · have loose : Steady d m (m1.clear p) := by
        refine Steady.trans (Steady.outside fun _ _ => by rw [table1]) ?_
        exact Steady.loose nodup1 List.mem_cons_self fun q h => Function.update_of_ne h _ _
      refine loose.trans ⟨fun i hi j hj => ?_,fun sealing i high low there j => ?_⟩
      · rw [setDirectory_at (holdings_nodup nodup2) (mem_frame.mpr ⟨hi,hj⟩) (Ne.symm apart) vacant
          fun j => by rw [zero]; rfl]
        exact if_neg (by simp)
      · rcases eq_or_ne i (pdx va) with rfl | other
        · rw [setEntry_same,setEntry_page (Ne.symm apart),zero]
          rfl
        · rw [setEntry_index other] at there ⊢
          have table : ((m1.clear p).table d i).page ≠ d :=
            at_ne_directory (holdings_nodup nodup2) (mem_table.mpr low) (at_table there)
          rw [setEntry_page table]
          exact sealing i high low there j
    · refine plenty.table (e := ⟨true,true,true,p⟩) kernel (pdx_lt va) absent ?_ ?_ ?_ rfl
      · rw [← hm1]
        exact willing
      · rw [free,← hm1]
        rfl
      · rw [← directory]
        exact Function.update_self _ _ _
    · rw [made,Vm.plant,hm1,setEntry_same]
    · rw [setEntry_same]

/-- One page is mapped at a user address that had none. -/
theorem mapPage_spec {mem : Page} {va : Nat} (nodup : (pool (mem :: x) m d).Nodup) (low : va < 2147483648)
    (aligned : va % 4096 = 0) (vacant : m.at d (.frame (pdx va) (ptx va)) = none) : ∃ m',
    mappages m d va pgsize mem true true = .ok (false,m') ∧ Works d (mem :: x) (mem :: x) m m' ∧ Steady d m m' ∧
      Starved m ∨
    mappages m d va pgsize mem true true = .ok (true,m') ∧ Works d (mem :: x) x m m' ∧ (Sealed m d → Sealed m' d) ∧
      ∀ place ∈ places, (∀ i, place ≠ .table i) →
        m'.at d place = if place = .frame (pdx va) (ptx va) then some mem else m.at d place := by
  have last : pgrounddown (u32 (va + pgsize + 4294967295)) = va := by
    have : u32 (va + 4096 + 4294967295) = va + 4095 := by
      unfold u32
      omega
    change u32 (va + 4096 + 4294967295) / 4096 * 4096 = va
    omega
  have start : pgrounddown va = va := by
    change va / 4096 * 4096 = va
    omega
  unfold mappages
  rw [last,start]
  unfold mappagesLoop
  obtain ⟨m1,works,steady,_,⟨none_left,starved,_⟩ | ⟨found,present⟩⟩ := walkpgdir_spec nodup va
  · rw [none_left]
    exact ⟨m1,Or.inl ⟨rfl,works,steady,starved⟩⟩
  · rw [found]
    have single := holdings_nodup (works.nodup nodup)
    have user := pdx_user low
    have free : m1.at d (.frame (pdx va) (ptx va)) = none := by
      rw [steady.frames _ user _ (ptx_lt va)]
      exact vacant
    have put := map_works (x := x) (e := ⟨true,true,true,mem⟩) single user (ptx_lt va) present free rfl
    refine ⟨_,Or.inr ⟨by simp,works.trans put,?_,fun place inside notable => ?_⟩⟩
    · exact fun sealing => setEntry_sealed single (pdx_lt va) present (Or.inl user) (steady.sealing sealing)
    · rw [setEntry_at single (pdx_lt va) present inside]
      cases place with
      | table i => exact absurd rfl (notable i)
      | frame i j =>
        obtain ⟨hi,hj⟩ := mem_frame.mp inside
        rw [steady.frames i hi j hj]
        rfl

/-- Kernel addresses are mapped, as far as there are pages for the tables. -/
theorem mapKernel_spec (last : Nat) (writable : Bool) (fuel : Nat) {a : Nat} (pa : Page) (nodup : (pool x m d).Nodup)
    (high : 2147483648 ≤ a) (bound : a ≤ last) (width : last < 4294967296) (aligned : a % 4096 = 0)
    (aligned' : last % 4096 = 0) (enough : last - a < fuel * 4096) :
    ∃ r m', mappagesLoop d last writable false fuel m a pa = .ok (r,m') ∧ Works d x x m m' ∧ Steady d m m' ∧
      (Plenty d m → r = true ∧ Plenty d m') := by
  induction fuel generalizing m a pa with
  | zero => omega
  | succ fuel ih =>
    unfold mappagesLoop
    have kernel : 512 ≤ pdx a := by
      unfold pdx
      omega
    obtain ⟨m1,works,steady,rich,⟨none_left,starved,absent⟩ | ⟨found,present⟩⟩ := walkpgdir_spec nodup a
    · rw [none_left]
      refine ⟨false,m1,rfl,works,steady,fun plenty => ?_⟩
      exact absurd starved (plenty.fed kernel (pdx_lt a) absent)
    · rw [found]
      have nodup1 := works.nodup nodup
      have single := holdings_nodup nodup1
      have rich1 (plenty : Plenty d m) : Plenty d (m1.setEntry (m1.table d (pdx a)).page (ptx a)
          ⟨true,writable,false,pa⟩) := by
        have tab := at_table present
        have apart : d ≠ (m1.table d (pdx a)).page :=
          (at_ne_directory single (mem_table.mpr (pdx_lt a)) tab).symm
        obtain ⟨willing,enough⟩ := rich kernel plenty
        refine ⟨willing,?_⟩
        simp only [missing,setEntry_page apart] at enough ⊢
        exact enough
      have put := kernel_works (x := x) (j := ptx a) (e := ⟨true,writable,false,pa⟩) single kernel (pdx_lt a) present
      have still : Steady d m1 (m1.setEntry (m1.table d (pdx a)).page (ptx a) ⟨true,writable,false,pa⟩) := by
        refine ⟨fun i hi j hj => ?_,setEntry_sealed single (pdx_lt a) present (Or.inr rfl)⟩
        rw [setEntry_at single (pdx_lt a) present (mem_frame.mpr ⟨hi,hj⟩)]
        refine if_neg fun same => ?_
        have := (Place.frame.inj same).1
        omega
      dsimp only
      rcases eq_or_ne a last with rfl | more
      · rw [if_pos rfl]
        exact ⟨true,_,rfl,works.trans put,steady.trans still,fun plenty => ⟨rfl,rich1 plenty⟩⟩
      · rw [if_neg more]
        have next : u32 (a + pgsize) = a + 4096 := u32_of_lt (by change a + 4096 < 4294967296; omega)
        rw [next]
        obtain ⟨r,m2,ok,works2,steady2,rich2⟩ := ih (a := a + 4096) ((pa + 1) % 1048576) (put.nodup nodup1) (by omega) (by omega)
          (by omega) (by omega)
        exact ⟨r,m2,ok,(works.trans put).trans works2,(steady.trans still).trans steady2,fun plenty => rich2 (rich1 plenty)⟩

end walk

section release
variable {d p : Page} {x : List Page} {m : Vm} {i j : Nat}

theorem kfree_outside (nodup : (pool (p :: x) m d).Nodup) : Steady d m (kfree m p) :=
  Steady.loose nodup List.mem_cons_self fun _ h => Function.update_of_ne h _ _

theorem clear_outside (nodup : (pool x m d).Nodup) (hand : p ∈ x) : Steady d m (m.clear p) :=
  Steady.loose nodup hand fun _ h => Function.update_of_ne h _ _

/-- A frame is freed and its entry cleared, in either order. -/
theorem freeFrame_spec (nodup : (pool x m d).Nodup) (low : i < 512) (index : j < 1024)
    (present : (m.table d i).present = true) (mapped : m.at d (.frame i j) = some p) : ∃ m',
    m' = (kfree m p).setEntry (m.table d i).page j .zero ∧ Works d x x m m' ∧ (Sealed m d → Sealed m' d) ∧
      ∀ k < 512, ∀ l < 1024, m'.at d (.frame k l) = if k = i ∧ l = j then none else m.at d (.frame k l) := by
  have single := holdings_nodup nodup
  have take := unmap_works (x := x) (e := .zero) single low index present mapped rfl
  have nodup1 := take.nodup nodup
  have give := kfree_works nodup1
  have apart : (m.table d i).page ≠ p := by
    intro same
    have twice := at_injective single (mem_table.mpr (by omega)) (mem_frame.mpr ⟨low,index⟩) (at_table present)
      (same ▸ mapped)
    cases twice
  refine ⟨_,rfl,?_⟩
  have order : (kfree m p).setEntry (m.table d i).page j .zero =
      kfree (m.setEntry (m.table d i).page j .zero) p := by
    simp only [Vm.setEntry,kfree,Function.update_of_ne apart,Vm.mk.injEq,and_true]
    exact Function.update_comm apart.symm _ _ _
  rw [order]
  have still := kfree_outside nodup1
  refine ⟨take.trans give,?_,fun k hk l hl => ?_⟩
  · exact fun sealing => still.sealing (setEntry_sealed single (by omega) present (Or.inl low) sealing)
  · rw [still.frames k hk l hl,setEntry_at single (by omega) present (mem_frame.mpr ⟨hk,hl⟩)]
    simp only [Place.frame.injEq]
    rfl

/-- `deallocuvm` unmaps the pages in its range and frees them. -/
theorem deallocLoop_spec {oldsz : Nat} (limit : oldsz ≤ 2147483648) (fuel : Nat) {a : Nat} (nodup : (pool x m d).Nodup)
    (aligned : a % 4096 = 0) (enough : oldsz ≤ a + fuel * 4096) :
    ∃ m', deallocuvmLoop d oldsz (fuel + 1) m a = .ok m' ∧ Works d x x m m' ∧ (Sealed m d → Sealed m' d) ∧
      ∀ k < 512, ∀ l < 1024, m'.at d (.frame k l) =
        if a ≤ (k * 1024 + l) * 4096 ∧ (k * 1024 + l) * 4096 < oldsz then none else m.at d (.frame k l) := by
  induction fuel generalizing m a with
  | zero =>
    unfold deallocuvmLoop
    rw [if_neg (by omega)]
    refine ⟨m,rfl,Works.refl d x m,id,fun k hk l hl => (if_neg ?_).symm⟩
    omega
  | succ fuel ih =>
    unfold deallocuvmLoop
    split
    · rename_i more
      have low : pdx a < 512 := pdx_user (by omega)
      have next : u32 (a + pgsize) = a + 4096 := u32_of_lt (by change a + 4096 < 4294967296; omega)
      have place : a = (pdx a * 1024 + ptx a) * 4096 := by
        unfold pdx ptx
        omega
      have column := ptx_lt a
      cases present : (m.table d (pdx a)).present with
      | false =>
        have walk : (walkpgdir m d a false).1 = none := by
          simp [walkpgdir,present]
        have skip : u32 ((pdx a + 1) * 4194304) = (pdx a + 1) * 4194304 := u32_of_lt (by omega)
        rw [walk]
        dsimp only
        rw [skip]
        obtain ⟨m1,ok,works,sealing,frames⟩ := ih (a := (pdx a + 1) * 4194304) nodup (by omega) (by omega)
        refine ⟨m1,ok,works,sealing,fun k hk l hl => ?_⟩
        rw [frames k hk l hl]
        rcases eq_or_ne k (pdx a) with rfl | other
        · simp only [at_frame_none present,ite_self]
        · have same : ((pdx a + 1) * 4194304 ≤ (k * 1024 + l) * 4096 ∧ (k * 1024 + l) * 4096 < oldsz) ↔
              a ≤ (k * 1024 + l) * 4096 ∧ (k * 1024 + l) * 4096 < oldsz := by
            omega
          simp only [same]
      | true =>
        have walk : (walkpgdir m d a false).1 = some ((m.table d (pdx a)).page,ptx a) := by
          simp [walkpgdir,present]
        rw [walk]
        dsimp only
        rw [next]
        cases mapped : (m.table (m.table d (pdx a)).page (ptx a)).present with
        | false =>
          have vacant : m.at d (.frame (pdx a) (ptx a)) = none := if_neg (by simp [mapped])
          obtain ⟨m1,ok,works,sealing,frames⟩ := ih (a := a + 4096) nodup (by omega) (by omega)
          refine ⟨m1,by simpa using ok,works,sealing,fun k hk l hl => ?_⟩
          rw [frames k hk l hl]
          by_cases here : k = pdx a ∧ l = ptx a
          · rw [here.1,here.2,vacant,ite_self,ite_self]
          · have same : (a + 4096 ≤ (k * 1024 + l) * 4096 ∧ (k * 1024 + l) * 4096 < oldsz) ↔
                a ≤ (k * 1024 + l) * 4096 ∧ (k * 1024 + l) * 4096 < oldsz := by
              omega
            simp only [same]
        | true =>
          have here : m.at d (.frame (pdx a) (ptx a)) = some (m.table (m.table d (pdx a)).page (ptx a)).page :=
            if_pos ⟨present,mapped⟩
          obtain ⟨m1,same,works,sealing,frames⟩ := freeFrame_spec nodup low (ptx_lt a) present here
          obtain ⟨m2,ok,works2,sealing2,frames2⟩ := ih (a := a + 4096) (works.nodup nodup) (by omega) (by omega)
          rw [if_pos rfl,← same]
          refine ⟨m2,ok,works.trans works2,sealing2 ∘ sealing,fun k hk l hl => ?_⟩
          rw [frames2 k hk l hl,frames k hk l hl]
          by_cases freed : k = pdx a ∧ l = ptx a
          · rw [if_pos freed,ite_self,if_pos]
            omega
          · rw [if_neg freed]
            have range : (a + 4096 ≤ (k * 1024 + l) * 4096 ∧ (k * 1024 + l) * 4096 < oldsz) ↔
                a ≤ (k * 1024 + l) * 4096 ∧ (k * 1024 + l) * 4096 < oldsz := by
              omega
            simp only [range]
    · rename_i done
      refine ⟨m,rfl,Works.refl d x m,id,fun k hk l hl => (if_neg ?_).symm⟩
      omega

/-- The address space is given back whole, and nothing else is touched. -/
structure Released (d : Page) (x : List Page) (m m' : Vm) : Prop where
  conserve : (x ++ m'.freelist).Perm (pool x m d)
  table : ∀ q ∉ pool x m d, m'.table q = m.table q
  frame : ∀ q ∉ pool x m d, m'.frame q = m.frame q

theorem Works.release {m' m'' : Vm} (works : Works d x x m m') (released : Released d x m' m'') :
    Released d x m m'' where
  conserve := released.conserve.trans works.conserve
  table := fun q out =>
    (released.table q fun h => out (works.conserve.mem_iff.mp h)).trans (works.table q out)
  frame := fun q out =>
    (released.frame q fun h => out (works.conserve.mem_iff.mp h)).trans (works.frame q out)

/-- The tables that the first `n` entries of a directory refer to. -/
def tables (m : Vm) (d : Page) (n : Nat) : List Page := (List.range n).filterMap fun i => m.at d (.table i)

theorem tables_succ (m : Vm) (d : Page) (n : Nat) :
    tables m d (n + 1) = tables m d n ++ (m.at d (.table n)).toList := by
  unfold tables
  rw [List.range_succ,List.filterMap_append]
  congr 1

/-- A directory without frames holds its tables only. -/
theorem holdings_empty (empty : ∀ i < 512, ∀ j < 1024, m.at d (.frame i j) = none) :
    holdings m d = d :: tables m d 1024 := by
  unfold holdings inventory places tables
  rw [List.filterMap_append,List.filterMap_map]
  have none_left : ((List.range 512).flatMap fun i => (List.range 1024).map (Place.frame i)).filterMap (m.at d) = [] := by
    refine List.filterMap_eq_nil_iff.mpr fun place inside => ?_
    obtain ⟨i,hi,row⟩ := List.mem_flatMap.mp inside
    obtain ⟨j,hj,rfl⟩ := List.mem_map.mp row
    exact empty i (List.mem_range.mp hi) j (List.mem_range.mp hj)
  rw [none_left,List.append_nil]
  rfl

/-- A directory that is all zero holds nothing but itself. -/
theorem holdings_clear (zero : ∀ j, m.table d j = .zero) : holdings m d = [d] := by
  have empty (i j : Nat) : m.at d (.frame i j) = none := at_frame_none (by rw [zero]; rfl)
  rw [holdings_empty fun i _ j _ => empty i j]
  refine congrArg (d :: ·) (List.filterMap_eq_nil_iff.mpr fun i _ => ?_)
  exact if_neg (by rw [zero]; simp [Entry.zero])

theorem freevmLoop_spec (away : d ∉ tables m d 1024) (n : Nat) (low : n ≤ 1024) :
    (freevmLoop d n m).freelist.Perm (tables m d n ++ m.freelist) ∧
      (∀ q ∉ tables m d n, (freevmLoop d n m).table q = m.table q) ∧
      ∀ q ∉ tables m d n, (freevmLoop d n m).frame q = m.frame q := by
  induction n with
  | zero => exact ⟨List.Perm.refl _,fun _ _ => rfl,fun _ _ => rfl⟩
  | succ n ih =>
    obtain ⟨free,table,frame⟩ := ih (by omega)
    have sub (q : Page) (h : q ∈ tables m d n) : q ∈ tables m d 1024 := by
      obtain ⟨i,hi,here⟩ := List.mem_filterMap.mp h
      have := List.mem_range.mp hi
      exact List.mem_filterMap.mpr ⟨i,List.mem_range.mpr (by omega),here⟩
    have directory := table d fun h => away (sub d h)
    unfold freevmLoop
    dsimp only
    rw [directory,tables_succ]
    cases present : (m.table d n).present with
    | false =>
      have here : m.at d (.table n) = none := if_neg (by simp [present])
      rw [here,Option.toList_none,List.append_nil]
      exact ⟨free,table,frame⟩
    | true =>
      rw [at_table present,Option.toList_some,if_pos rfl]
      refine ⟨?_,fun q out => ?_,fun q out => ?_⟩
      · rw [List.append_assoc]
        exact (free.cons _).trans List.perm_middle.symm
      · have other : q ≠ (m.table d n).page := by
          rintro rfl
          exact out (List.mem_append_right _ List.mem_cons_self)
        exact (Function.update_of_ne other _ _).trans (table q fun h => out (List.mem_append_left _ h))
      · have other : q ≠ (m.table d n).page := by
          rintro rfl
          exact out (List.mem_append_right _ List.mem_cons_self)
        exact (Function.update_of_ne other _ _).trans (frame q fun h => out (List.mem_append_left _ h))

theorem freevm_spec (nodup : (pool x m d).Nodup) : ∃ m', freevm m d = .ok m' ∧ Released d x m m' := by
  obtain ⟨m1,ok,works,_,frames⟩ := deallocLoop_spec (le_refl 2147483648) 1048576 nodup (by omega : 0 % 4096 = 0)
    (by omega)
  have dealloc : deallocuvm m d kernbase 0 = .ok (0,m1) := by
    unfold deallocuvm
    rw [if_neg (by decide)]
    have start : pgroundup 0 = 0 := by decide
    rw [start]
    have freed : deallocuvmLoop d kernbase 1048577 m 0 = .ok m1 := ok
    rw [freed]
  have nodup1 := works.nodup nodup
  have empty : holdings m1 d = d :: tables m1 d 1024 := by
    refine holdings_empty fun i hi j hj => ?_
    rw [frames i hi j hj,if_pos]
    omega
  have away : d ∉ tables m1 d 1024 := by
    have single := holdings_nodup nodup1
    rw [empty] at single
    exact (List.nodup_cons.mp single).1
  obtain ⟨free,table,frame⟩ := freevmLoop_spec away 1024 (le_refl _)
  unfold freevm
  rw [dealloc]
  refine ⟨_,rfl,works.release ⟨?_,fun q out => ?_,fun q out => ?_⟩⟩
  · rw [pool,empty]
    refine List.Perm.append_left x ?_
    exact (free.cons d).trans ((List.perm_append_comm.cons d).trans List.perm_middle.symm)
  · have outside : q ∉ d :: tables m1 d 1024 := fun h => out (mem_pool.mpr (Or.inr (Or.inr (empty ▸ h))))
    have other : q ≠ d := fun h => outside (h ▸ List.mem_cons_self)
    exact (Function.update_of_ne other _ _).trans (table q fun h => outside (List.mem_cons_of_mem _ h))
  · have outside : q ∉ d :: tables m1 d 1024 := fun h => out (mem_pool.mpr (Or.inr (Or.inr (empty ▸ h))))
    have other : q ≠ d := fun h => outside (h ▸ List.mem_cons_self)
    exact (Function.update_of_ne other _ _).trans (frame q fun h => outside (List.mem_cons_of_mem _ h))

end release

end Lxos.Kernel
