import Lxos.Kernel.Reclaim

/-! `allocuvm` maps all the pages it is asked for, or none. What it has mapped before an
allocation fails is found again by `deallocuvm`, and given back. -/
namespace Lxos.Kernel
open Lxos.Bytes Lxos.Fs Lxos.Outcome Lxos.Inventory

/-- What the processor finds at virtual page `n`. -/
def Vm.mapping (m : Vm) (d : Page) (n : Nat) : Option Entry := if (m.pte d n).present then some (m.pte d n) else none

section mapping
variable {d : Page} {m m' : Vm} {n va : Nat} {e : Entry}

theorem mapping_eq (same : m'.pte d n = m.pte d n) : m'.mapping d n = m.mapping d n := by
  unfold Vm.mapping
  rw [same]

theorem mapping_some (pte : m.pte d n = e) (present : e.present = true) : m.mapping d n = some e := by
  unfold Vm.mapping
  rw [pte,if_pos present]

theorem mapping_none (absent : (m.pte d n).present = false) : m.mapping d n = none := if_neg (by simp [absent])

theorem pte_of_mapping (here : m.mapping d n = some e) : m.pte d n = e ∧ e.present = true := by
  unfold Vm.mapping at here
  split at here
  · rename_i present
    obtain rfl := Option.some.inj here
    exact ⟨rfl,present⟩
  · cases here

theorem absent_of_mapping (here : m.mapping d n = none) : (m.pte d n).present = false := by
  unfold Vm.mapping at here
  split at here
  · cases here
  · rename_i absent
    exact Bool.eq_false_iff.mpr absent

theorem translate_mapping (low : va < 4294967296) :
    translate m d va = (m.mapping d (va / 4096)).map fun e => (e.page,va % 4096) := by
  rw [translate_eq low]
  unfold Vm.mapping
  split
  · rfl
  · rfl

theorem at_mapping {i j : Nat} (column : j < 1024) :
    m.at d (.frame i j) = (m.mapping d (i * 1024 + j)).map Entry.page := by
  rw [at_frame_eq column]
  unfold Vm.mapping
  split
  · rfl
  · rfl

end mapping

/-- The pages from `first` up to `last` got free frames of their own; `x` is in hand. -/
structure Grows (d : Page) (x : List Page) (first last : Nat) (m m' : Vm) : Prop where
  works : Works d [] x m m'
  mapping : ∀ k < 1048576, ¬(first ≤ k ∧ k < last) → m'.mapping d k = m.mapping d k
  fresh : ∀ k, first ≤ k → k < last → ∃ p ∈ m.freelist, m'.pte d k = ⟨true,true,true,p⟩ ∧ m'.frame p = zeros
  kept : ∀ i < 1024, (m.table d i).present = true → m'.table d i = m.table d i
  free : m'.freelist ⊆ m.freelist
  frame : ∀ q ∉ m.freelist, m'.frame q = m.frame q

section growth
variable {d mem : Page} {x : List Page} {m₀ m m' : Vm} {first last n oldsz newsz : Nat}

theorem Tabled.grows (works : Works d [] x m m') (tabled : Tabled d m m') (n : Nat) : Grows d x n n m m' :=
  ⟨works,fun k low _ => mapping_eq (tabled.entry k low),fun _ lower upper => absurd upper (Nat.not_lt.mpr lower),
    tabled.kept,tabled.free,tabled.frame⟩

/-- The page after those mapped so far. -/
theorem Grows.trans (before : Grows d [] first n m₀ m) (nodup : (pool [] m₀ d).Nodup) (order : first ≤ n)
    (further : n ≤ last) (user : n ≤ 524288) (after : Grows d x n last m m') : Grows d x first last m₀ m' where
  works := before.works.trans after.works
  mapping := fun k low out => by
    rw [after.mapping k low (by omega),before.mapping k low (by omega)]
  fresh := fun k lower upper => by
    rcases Nat.lt_or_ge k n with old | new
    · obtain ⟨p,member,pte,zero⟩ := before.fresh k lower old
      have here := mapping_some pte rfl
      have same : m'.mapping d k = some ⟨true,true,true,p⟩ := (after.mapping k (by omega) (by omega)).trans here
      obtain ⟨inside,place⟩ := at_page (d := d) (m := m) (n := k) (by omega) (by rw [pte])
      have used : p ∉ m.freelist := fun loose =>
        apart_of_pool (before.works.nodup nodup) (Or.inr loose) (mem_holdings.mpr (Or.inr ⟨_,inside,by rw [place,pte]⟩))
      exact ⟨p,member,(pte_of_mapping same).1,(after.frame p used).trans zero⟩
    · obtain ⟨p,member,pte,zero⟩ := after.fresh k new upper
      exact ⟨p,before.free member,pte,zero⟩
  kept := fun i low present => by
    have same := before.kept i low present
    rw [← same] at present ⊢
    exact after.kept i low present
  free := List.Subset.trans after.free before.free
  frame := fun q out => (after.frame q fun inside => out (before.free inside)).trans (before.frame q out)

/-- A free page is cleared and mapped, or stays in hand. -/
theorem grow_page {rest : List Page} {r : List Bool} (nodup : (pool [] m d).Nodup) (user : n < 524288)
    (vacant : (m.pte d n).present = false) (free : m.freelist = mem :: rest) (willing : m.refused = [] → r = []) :
    ∃ m', mappages (({ m with freelist := rest,refused := r } : Vm).clear mem) d (n * 4096) pgsize mem true true =
        .ok (false,m') ∧ Grows d [mem] n n m m' ∨
      mappages (({ m with freelist := rest,refused := r } : Vm).clear mem) d (n * 4096) pgsize mem true true =
        .ok (true,m') ∧ Grows d [] n (n + 1) m m' := by
  have member : mem ∈ m.freelist := free ▸ List.mem_cons_self
  have outside := apart_of_pool nodup (Or.inr member)
  have take := kalloc_works (d := d) (x := []) free willing
  have nodup1 := take.nodup nodup
  have wipe := clear_works (p := mem) nodup1 List.mem_cons_self
  have nodup2 := wipe.nodup nodup1
  have works := take.trans wipe
  have zero : (({ m with freelist := rest,refused := r } : Vm).clear mem).frame mem = zeros := Function.update_self _ _ _
  have loose : Tabled d m (({ m with freelist := rest,refused := r } : Vm).clear mem) := by
    refine ⟨fun k low => pte_outside (fun q inside => ?_) low,fun i _ _ => ?_,?_,fun q out => ?_⟩
    · exact Function.update_of_ne (fun same : q = mem => outside (same ▸ inside)) _ _
    · exact congrFun (Function.update_of_ne (fun same : d = mem => outside (same ▸ List.mem_cons_self)) _ _) i
    · rw [free]
      exact List.subset_cons_self mem rest
    · exact Function.update_of_ne (fun same : q = mem => out (same ▸ member)) _ _
  generalize ({ m with freelist := rest,refused := r } : Vm).clear mem = m1 at works nodup2 zero loose ⊢
  obtain ⟨m2,works2,tabled,_,fail | ⟨present,done⟩⟩ := mappages_page nodup2 user mem true true
  · exact ⟨m2,Or.inl ⟨fail,(loose.trans tabled).grows (works.trans works2) n⟩⟩
  · have nodup3 := works2.nodup nodup2
    have single := holdings_nodup nodup3
    have low : n < 1048576 := by omega
    have grown := loose.trans tabled
    have free2 : m2.at d (.frame (n / 1024) (n % 1024)) = none := by
      rw [at_mapping (Nat.mod_lt _ (by decide)),show n / 1024 * 1024 + n % 1024 = n by omega]
      rw [mapping_none (by rw [grown.entry n low]; exact vacant)]
      rfl
    have put := map_works (x := []) (e := ⟨true,true,true,mem⟩) single (by omega : n / 1024 < 512)
      (Nat.mod_lt n (by decide)) present free2 rfl
    have entry (k : Nat) (bound : k < 1048576) := pte_setEntry (e := ⟨true,true,true,mem⟩) (tree_of_nodup single) low
      present bound
    have used : mem ∉ m1.freelist := fun inside =>
      (List.nodup_append.mp nodup2).2.2 mem List.mem_cons_self mem (List.mem_append_left _ inside) rfl
    refine ⟨_,Or.inr ⟨done,(works.trans works2).trans put,fun k bound out => ?_,fun k lower upper => ?_,
      fun i bound there => ?_,grown.free,grown.frame⟩⟩
    · have other : k ≠ n := by omega
      exact mapping_eq ((entry k bound).trans (by rw [if_neg other,grown.entry k bound]))
    · obtain rfl : k = n := by omega
      exact ⟨mem,member,(entry k low).trans (if_pos rfl),(tabled.frame mem used).trans zero⟩
    · rw [setEntry_page ((tree_of_nodup single).apart _ (row_lt low) present).symm]
      exact grown.kept i bound there

/-- The pages that `deallocuvm` frees come from the address space. -/
theorem deallocuvm_works (nodup : (pool x m d).Nodup) (order : oldsz ≤ newsz) (limit : newsz ≤ 2147483648) :
    ∃ m', deallocuvm m d newsz oldsz = .ok (oldsz,m') ∧ Works d x x m m' ∧
      Reclaimed d (pages oldsz) (pages newsz) m m' := by
  obtain ⟨m1,ok1,works,_⟩ := deallocLoop_spec limit 1048576 nodup (Nat.mul_mod_left (pages oldsz) 4096)
    (limit.trans (by omega))
  have plain := deallocuvmLoop_plain (d := d) (n := pages oldsz) limit 1048576 m (limit.trans (by omega))
  obtain rfl : m1 = plainScan d m (pages oldsz) (pages newsz) := Except.ok.inj (ok1.symm.trans plain)
  obtain ⟨m',ok,reclaimed⟩ := deallocuvm_reclaims (holdings_nodup nodup) order limit
  obtain rfl : plainScan d m (pages oldsz) (pages newsz) = m' :=
    (Prod.mk.inj (Except.ok.inj ((deallocuvm_plain m d order limit).symm.trans ok))).2
  exact ⟨_,ok,works,reclaimed⟩

/-- `deallocuvm` takes back what was mapped so far. -/
theorem Grows.undo (grows : Grows d x first n m₀ m) (nodup : (pool [] m₀ d).Nodup) (order : oldsz ≤ newsz)
    (limit : newsz ≤ 2147483648) (from_ : first = pages oldsz) (upto : n ≤ pages newsz)
    (vacant : ∀ k < 524288, first ≤ k → (m₀.pte d k).present = false) :
    ∃ m', deallocuvm m d newsz oldsz = .ok (oldsz,m') ∧ Grows d x first first m₀ m' := by
  subst from_
  have nodup1 := grows.works.nodup nodup
  obtain ⟨m',ok,works,reclaimed⟩ := deallocuvm_works nodup1 order limit
  have top : pages newsz ≤ 524288 := by
    unfold pages
    omega
  have mine (p : Page) (inside : p ∈ frames m d (pages oldsz) (pages newsz)) : p ∈ m₀.freelist := by
    obtain ⟨k,lower,upper,here⟩ := mem_frames.mp inside
    rcases Nat.lt_or_ge k n with old | beyond
    · obtain ⟨q,member,pte,_⟩ := grows.fresh k lower old
      rw [mapped,pte,if_pos rfl] at here
      exact Option.some.inj here ▸ member
    · have none_left : m.mapping d k = none :=
        (grows.mapping k (by omega) (by omega)).trans (mapping_none (vacant k (by omega) lower))
      rw [mapped,if_neg (by rw [absent_of_mapping none_left]; decide)] at here
      cases here
  refine ⟨m',ok,grows.works.trans works,fun k low _ => ?_,fun k lower upper => absurd upper (Nat.not_lt.mpr lower),
    fun i low present => ?_,fun p inside => ?_,fun q out => ?_⟩
  · have entry := reclaimed.entry k low
    split at entry
    · rename_i freed
      rw [mapping_none (by rw [entry]; rfl),mapping_none (vacant k (by omega) freed.1)]
    · rename_i stays
      rw [mapping_eq entry]
      rcases Nat.lt_or_ge k (pages oldsz) with below | above
      · exact grows.mapping k low (by omega)
      · rcases Nat.lt_or_ge k n with new | beyond
        · obtain ⟨q,_,pte,_⟩ := grows.fresh k above new
          exact absurd ⟨above,Nat.lt_of_lt_of_le new upto,by rw [pte]⟩ stays
        · exact grows.mapping k low (by omega)
  · rw [reclaimed.directory]
    exact grows.kept i low present
  · rw [reclaimed.freelist] at inside
    rcases List.mem_append.mp inside with freed | before
    · exact mine p (List.mem_reverse.mp freed)
    · exact grows.free before
  · rw [reclaimed.frame q fun inside => out (mine q inside)]
    exact grows.frame q out

/-- A page in hand is given back. -/
theorem Grows.release (grows : Grows d [mem] first first m₀ m) (nodup : (pool [] m₀ d).Nodup) (mine : mem ∈ m₀.freelist) :
    Grows d [] first first m₀ (kfree m mem) := by
  have nodup1 := grows.works.nodup nodup
  have outside := apart_of_pool nodup1 (Or.inl List.mem_cons_self)
  have away (q : Page) (inside : q ∈ holdings m d) : (kfree m mem).table q = m.table q :=
    Function.update_of_ne (fun same : q = mem => outside (same ▸ inside)) _ _
  refine ⟨grows.works.trans (kfree_works nodup1),fun k low out => ?_,fun k lower upper => absurd upper (Nat.not_lt.mpr lower),
    fun i low present => ?_,fun p inside => ?_,fun q out => ?_⟩
  · rw [mapping_eq (pte_outside away low)]
    exact grows.mapping k low out
  · rw [away d List.mem_cons_self]
    exact grows.kept i low present
  · rcases List.mem_cons.mp inside with rfl | before
    · exact mine
    · exact grows.free before
  · exact (Function.update_of_ne (fun same : q = mem => out (same ▸ mine)) _ _).trans (grows.frame q out)

theorem allocuvmLoop_grows (nodup : (pool [] m₀ d).Nodup) (order : oldsz ≤ newsz) (limit : newsz < 2147483648)
    (vacant : ∀ k < 524288, pages oldsz ≤ k → (m₀.pte d k).present = false) (fuel : Nat) (lower : pages oldsz ≤ n)
    (upper : n ≤ pages newsz) (enough : newsz ≤ (n + fuel) * 4096) (grows : Grows d [] (pages oldsz) n m₀ m) :
    ∃ r m', allocuvmLoop d oldsz newsz (fuel + 1) m (n * 4096) = .ok (r,m') ∧
      (r = newsz ∧ Grows d [] (pages oldsz) (pages newsz) m₀ m' ∨
        r = 0 ∧ Grows d [] (pages oldsz) (pages oldsz) m₀ m') := by
  have bound : newsz ≤ 2147483648 := Nat.le_of_lt limit
  induction fuel generalizing m n with
  | zero =>
    have done : newsz ≤ n * 4096 := enough
    obtain rfl : n = pages newsz := le_antisymm upper (page_beyond done)
    unfold allocuvmLoop
    rw [if_neg (Nat.not_lt.mpr done)]
    exact ⟨newsz,m,rfl,Or.inl ⟨rfl,grows⟩⟩
  | succ fuel ih =>
    unfold allocuvmLoop
    rcases Nat.lt_or_ge (n * 4096) newsz with more | done
    · have user : n < 524288 := page_low more bound
      have still : m.mapping d n = none :=
        (grows.mapping n (Nat.lt_trans user (by decide)) fun inside => Nat.lt_irrefl n inside.2).trans (mapping_none (vacant n user lower))
      have inside : n + 1 ≤ pages newsz := page_inside more
      rw [if_pos more]
      rcases kalloc_cases m with ⟨r,none_left,_,willing⟩ | ⟨mem,rest,r,free,taken,willing⟩
      · have refused : Grows d [] (pages oldsz) n m₀ { m with refused := r } :=
          ⟨grows.works.trans (refused_works willing),grows.mapping,grows.fresh,grows.kept,grows.free,grows.frame⟩
        obtain ⟨m1,ok,undone⟩ := refused.undo nodup order bound rfl upper vacant
        rw [none_left]
        dsimp only
        rw [ok]
        exact ⟨0,m1,rfl,Or.inr ⟨rfl,undone⟩⟩
      · rw [taken]
        dsimp only
        have nodup1 := grows.works.nodup nodup
        have mine : mem ∈ m₀.freelist := grows.free (free ▸ List.mem_cons_self)
        obtain ⟨m1,⟨fail,step⟩ | ⟨ok,step⟩⟩ := grow_page nodup1 user (absent_of_mapping still) free willing
        · have sofar := grows.trans nodup lower (le_refl n) user.le step
          obtain ⟨m2,ok2,undone⟩ := sofar.undo nodup order bound rfl upper vacant
          rw [fail]
          dsimp only
          rw [ok2]
          exact ⟨0,_,rfl,Or.inr ⟨rfl,undone.release nodup mine⟩⟩
        · have sofar := grows.trans nodup lower (Nat.le_succ n) user.le step
          obtain ⟨r,m2,ok2,result⟩ := ih (n := n + 1) (Nat.le_succ_of_le lower) inside (fuel_left enough (le_refl 1)) sofar
          rw [ok]
          dsimp only
          rw [next_page user]
          exact ⟨r,m2,ok2,result⟩
    · obtain rfl : n = pages newsz := le_antisymm upper (page_beyond done)
      rw [if_neg (Nat.not_lt.mpr done)]
      exact ⟨newsz,m,rfl,Or.inl ⟨rfl,grows⟩⟩

theorem allocuvm_grows (nodup : (pool [] m d).Nodup) (order : oldsz ≤ newsz) (limit : newsz < 2147483648)
    (vacant : ∀ k < 524288, pages oldsz ≤ k → (m.pte d k).present = false) : ∃ r m', allocuvm m d oldsz newsz = .ok (r,m') ∧
      (r = newsz ∧ Grows d [] (pages oldsz) (pages newsz) m m' ∨
        r = 0 ∧ Grows d [] (pages oldsz) (pages oldsz) m m') := by
  have empty : Grows d [] (pages oldsz) (pages oldsz) m m := (Tabled.refl d m).grows (Works.refl d [] m) _
  unfold allocuvm
  rw [if_neg (Nat.not_le.mpr limit),if_neg (Nat.not_lt.mpr order),pgroundup_eq (by omega)]
  exact allocuvmLoop_grows nodup order limit vacant 1048576 (le_refl _) (pages_mono order) (limit.le.trans (by omega)) empty

/-- A free page that is no longer free is a page of the address space. -/
theorem Grows.spent (grows : Grows d [] first first m m') (nodup : (pool [] m d).Nodup) {p : Page} (member : p ∈ m.freelist)
    (gone : p ∉ m'.freelist) : ∃ i < 1024, (m.table d i).present = false ∧ (m'.table d i).present = true ∧
      (m'.table d i).page = p := by
  have outside := apart_of_pool nodup (Or.inr member)
  have owned : p ∈ holdings m' d := by
    have inside := grows.works.conserve.mem_iff.mpr (mem_pool.mpr (Or.inr (Or.inl member)))
    rcases mem_pool.mp inside with hand | free | held
    · cases hand
    · exact absurd free gone
    · exact held
  rcases mem_holdings.mp owned with rfl | ⟨place,inside,here⟩
  · exact absurd List.mem_cons_self outside
  · cases place with
    | table i =>
      have low := mem_table.mp inside
      simp only [Vm.at] at here
      split at here
      · rename_i present
        refine ⟨i,low,?_,present,Option.some.inj here⟩
        by_contra old
        have before := Bool.not_eq_false _ ▸ old
        have same := grows.kept i low before
        rw [same] at here
        exact outside (mem_holdings.mpr (Or.inr ⟨_,mem_table.mpr low,(at_table before).trans here⟩))
      · cases here
    | frame i j =>
      obtain ⟨row,column⟩ := mem_frame.mp inside
      rw [at_mapping column,grows.mapping _ (by omega) (by omega),← at_mapping column] at here
      exact absurd (mem_holdings.mpr (Or.inr ⟨_,inside,here⟩)) outside

end growth

/-- Each page between `oldsz`, rounded up, and `newsz` has got a zeroed frame of its own. -/
structure Allocated (d : Page) (oldsz newsz : Nat) (m m' : Vm) : Prop where
  fresh : ∀ n, pgroundup oldsz ≤ n * pgsize → n * pgsize < newsz → ∃ p ∈ m.freelist, p ∉ m'.freelist ∧
    m'.pte d n = ⟨true,true,true,p⟩ ∧ m'.frame p = zeros
  own : ∀ n < 524288, ∀ k < 524288, (m'.pte d n).present = true → (m'.pte d k).present = true →
    (m'.pte d n).page = (m'.pte d k).page → n = k
  other : ∀ va < 4294967296, ¬(pgroundup oldsz ≤ va ∧ pgrounddown va < newsz) →
    m'.mapping d (va / pgsize) = m.mapping d (va / pgsize) ∧ translate m' d va = translate m d va

/-- Nothing is mapped that was not before; what is missing from the free list are new page tables. -/
structure Undone (d : Page) (m m' : Vm) : Prop where
  same : ∀ va < 4294967296, m'.mapping d (va / pgsize) = m.mapping d (va / pgsize) ∧ translate m' d va = translate m d va
  free : m'.freelist.Nodup ∧ m'.freelist ⊆ m.freelist
  tables : ∀ p ∈ m.freelist, p ∉ m'.freelist → ∃ i < 1024, (m.table d i).present = false ∧
    (m'.table d i).present = true ∧ (m'.table d i).page = p

section whole
variable {d : Page} {m m' : Vm} {oldsz newsz : Nat}

theorem Grows.translate {first last va : Nat} (grows : Grows d [] first last m m') (low : va < 4294967296)
    (out : ¬(first ≤ va / 4096 ∧ va / 4096 < last)) :
    m'.mapping d (va / pgsize) = m.mapping d (va / pgsize) ∧ translate m' d va = translate m d va := by
  have same := grows.mapping (va / 4096) (by omega) out
  exact ⟨same,by rw [translate_mapping low,translate_mapping low,same]⟩

theorem Grows.allocated (grows : Grows d [] (pages oldsz) (pages newsz) m m') (nodup : (pool [] m d).Nodup)
    (order : oldsz ≤ newsz) (limit : newsz < 2147483648) : Allocated d oldsz newsz m m' := by
  have nodup' := grows.works.nodup nodup
  have start : pgroundup oldsz = pages oldsz * 4096 := pgroundup_eq (by omega)
  refine ⟨fun n lower upper => ?_,fun n user k user' here there same => ?_,fun va low out => ?_⟩
  · rw [start] at lower
    have first : pages oldsz ≤ n := Nat.le_of_mul_le_mul_right lower (by decide)
    obtain ⟨p,member,pte,zero⟩ := grows.fresh n first (page_inside upper)
    obtain ⟨inside,place⟩ := at_page (d := d) (m := m') (page_low upper limit.le) (by rw [pte])
    refine ⟨p,member,fun loose => ?_,pte,zero⟩
    exact apart_of_pool nodup' (Or.inr loose) (mem_holdings.mpr (Or.inr ⟨_,inside,by rw [place,pte]⟩))
  · have held (k : Nat) (present : (m'.pte d k).present = true) : mapped m' d k = some (m'.pte d k).page := if_pos present
    exact mapped_single (holdings_nodup nodup') user user' (held n here) (same ▸ held k there)
  · rw [start] at out
    refine grows.translate low fun inside => out ⟨?_,?_⟩
    · omega
    · have below := inside.2
      unfold pages at below
      change va / 4096 * 4096 < newsz
      omega

theorem Grows.undone (grows : Grows d [] (pages oldsz) (pages oldsz) m m') (nodup : (pool [] m d).Nodup) :
    Undone d m m' := by
  refine ⟨fun va low => grows.translate low (by omega),⟨?_,grows.free⟩,fun p => grows.spent nodup⟩
  exact (List.nodup_append.mp (List.nodup_append.mp (grows.works.nodup nodup)).2.1).1

/-- `allocuvm` either maps every page up to `newsz`, or leaves every translation as it was. -/
theorem allocuvm_whole (m : Vm) (d : Page) (oldsz newsz : Nat) (nodup : (pool [] m d).Nodup) (order : oldsz ≤ newsz)
    (limit : newsz < kernbase) (positive : 0 < newsz)
    (vacant : ∀ n, pgroundup oldsz ≤ n * pgsize → n * pgsize < kernbase → (m.pte d n).present = false) :
    ∃ r m', allocuvm m d oldsz newsz = .ok (r,m') ∧
      (r = newsz ∧ Allocated d oldsz newsz m m' ∨ r = 0 ∧ r ≠ newsz ∧ Undone d m m') := by
  have bound : newsz < 2147483648 := limit
  have start : pgroundup oldsz = pages oldsz * 4096 := pgroundup_eq (by omega)
  have empty (k : Nat) (user : k < 524288) (lower : pages oldsz ≤ k) : (m.pte d k).present = false := by
    refine vacant k ?_ ?_
    · rw [start]
      exact Nat.mul_le_mul_right 4096 lower
    · exact Nat.mul_lt_mul_of_pos_right user (by decide : 0 < 4096)
  obtain ⟨r,m',ok,⟨rfl,grown⟩ | ⟨rfl,undone⟩⟩ := allocuvm_grows nodup order bound empty
  · exact ⟨_,m',ok,Or.inl ⟨rfl,grown.allocated nodup order bound⟩⟩
  · exact ⟨0,m',ok,Or.inr ⟨rfl,Nat.ne_of_lt positive,undone.undone nodup⟩⟩

end whole

/-- Two free pages, and a directory without tables. -/
def bare : Vm := ⟨fun _ _ => .zero,fun _ => zeros,[6,7],[]⟩

theorem bare_nodup : (pool [] bare 5).Nodup := by
  have alone : pool [] bare 5 = [6,7,5] := by
    rw [pool,holdings_clear fun _ => rfl]
    rfl
  rw [alone]
  decide

theorem allocuvm_whole_bare : ∃ r m', allocuvm bare 5 0 4096 = .ok (r,m') ∧
    (r = 4096 ∧ Allocated 5 0 4096 bare m' ∨ r = 0 ∧ r ≠ 4096 ∧ Undone 5 bare m') :=
  allocuvm_whole bare 5 0 4096 bare_nodup (by decide) (by decide) (by decide) fun _ _ _ => rfl

end Lxos.Kernel
