import Lxos.Kernel.Copyout
import Lxos.Kernel.Upper
import Lxos.Kernel.Loader
import Mathlib.Logic.Relation

/-! The kernel's half of an address space stays. No call that builds or changes the
user's half of a directory touches an entry at or above `KERNBASE`. -/
namespace Lxos.Kernel
open Lxos.Bytes Lxos.Fs Lxos.Outcome Lxos.Inventory

/-- The directory and the tables of its kernel half. -/
def Fixed (m : Vm) (d q : Page) : Prop :=
  q = d ∨ ∃ i, 512 ≤ i ∧ i < 1024 ∧ (m.table d i).present = true ∧ (m.table d i).page = q

/-- The entries at and above `KERNBASE` stay, and the pages they are in are not written as frames. -/
structure Anchored (d : Page) (m m' : Vm) : Prop where
  directory : ∀ i, 512 ≤ i → i < 1024 → m'.table d i = m.table d i
  entry : ∀ n, 524288 ≤ n → n < 1048576 → m'.pte d n = m.pte d n
  frame : ∀ q, Fixed m d q → m'.frame q = m.frame q

section anchored
variable {d p mem : Page} {x : List Page} {m m' m'' : Vm} {n oldsz newsz : Nat} {e : Entry}

theorem Anchored.refl (d : Page) (m : Vm) : Anchored d m m := ⟨fun _ _ _ => rfl,fun _ _ _ => rfl,fun _ _ => rfl⟩

theorem Anchored.fixed (anchored : Anchored d m m') {q : Page} (fixed : Fixed m d q) : Fixed m' d q := by
  rcases fixed with rfl | ⟨i,high,low,present,page⟩
  · exact Or.inl rfl
  · refine Or.inr ⟨i,high,low,?_⟩
    rw [anchored.directory i high low]
    exact ⟨present,page⟩

theorem Anchored.trans (first : Anchored d m m') (second : Anchored d m' m'') : Anchored d m m'' where
  directory := fun i high low => (second.directory i high low).trans (first.directory i high low)
  entry := fun n high low => (second.entry n high low).trans (first.entry n high low)
  frame := fun q fixed => (second.frame q (first.fixed fixed)).trans (first.frame q fixed)

theorem Fixed.held {q : Page} (fixed : Fixed m d q) : q ∈ holdings m d := by
  rcases fixed with rfl | ⟨i,_,low,present,rfl⟩
  · exact List.mem_cons_self
  · exact mem_holdings.mpr (Or.inr ⟨_,mem_table.mpr low,at_table present⟩)

/-- A user frame is neither the directory nor one of its tables. -/
theorem frame_unfixed (nodup : (holdings m d).Nodup) (user : n < 524288) (present : (m.pte d n).present = true) :
    ¬Fixed m d (m.pte d n).page := by
  obtain ⟨apart,tables⟩ := frame_apart nodup user present
  rintro (same | ⟨i,_,low,there,page⟩)
  · exact apart same
  · exact tables i low there page

/-- Only a page in hand changes. -/
theorem loose_anchored (nodup : (pool x m d).Nodup) (hand : p ∈ x) (table : ∀ q, q ≠ p → m'.table q = m.table q)
    (frame : ∀ q, q ≠ p → m'.frame q = m.frame q) : Anchored d m m' := by
  have outside := apart_of_pool nodup (Or.inl hand)
  have other {q : Page} (held : q ∈ holdings m d) : q ≠ p := fun same => outside (same ▸ held)
  refine ⟨fun i _ _ => ?_,fun n _ low => ?_,fun q fixed => frame q (other fixed.held)⟩
  · rw [table d (other List.mem_cons_self)]
  · exact pte_outside (fun q held => table q (other held)) low

theorem kfree_anchored (nodup : (pool (p :: x) m d).Nodup) : Anchored d m (kfree m p) :=
  loose_anchored nodup List.mem_cons_self (fun _ other => Function.update_of_ne other _ _)
    fun _ other => Function.update_of_ne other _ _

theorem clear_anchored (nodup : (pool (p :: x) m d).Nodup) : Anchored d m (m.clear p) :=
  loose_anchored nodup List.mem_cons_self (fun _ other => Function.update_of_ne other _ _)
    fun _ other => Function.update_of_ne other _ _

/-- A frame is written. -/
theorem setFrame_anchored (unfixed : ¬Fixed m d p) (b : Buffer) : Anchored d m (m.setFrame p b) := by
  refine ⟨fun _ _ _ => rfl,fun _ _ _ => rfl,fun q fixed => Function.update_of_ne ?_ _ _⟩
  rintro rfl
  exact unfixed fixed

/-- Page tables are added for user addresses. -/
theorem Tabled.anchored (tabled : Tabled d m m') (nodup : (pool x m d).Nodup) (user : n < 524288)
    (row : ∀ i, i ≠ n / 1024 → m'.table d i = m.table d i) : Anchored d m m' := by
  refine ⟨fun i high _ => row i (by omega),fun k _ low => tabled.entry k low,fun q fixed => tabled.frame q fun loose => ?_⟩
  exact apart_of_pool nodup (Or.inr loose) fixed.held

/-- The entry of a user page is written. -/
theorem setEntry_anchored (nodup : (holdings m d).Nodup) (user : n < 524288)
    (present : (m.table d (n / 1024)).present = true) :
    Anchored d m (m.setEntry (m.table d (n / 1024)).page (n % 1024) e) := by
  have tree := tree_of_nodup nodup
  refine ⟨fun i _ _ => ?_,fun k high low => ?_,fun _ _ => rfl⟩
  · rw [setEntry_page (tree.apart _ (row_lt (by omega)) present).symm]
  · rw [pte_setEntry tree (by omega) present low,if_neg (by omega)]

/-- A page in hand is mapped, whatever was mapped there before. -/
theorem remap_nodup (nodup : (pool [e.page] m d).Nodup) (user : n < 524288) (new : e.present = true)
    (present : (m.table d (n / 1024)).present = true) :
    (pool [] (m.setEntry (m.table d (n / 1024)).page (n % 1024) e) d).Nodup := by
  have single := holdings_nodup nodup
  have low : n / 1024 < 512 := by omega
  have column : n % 1024 < 1024 := Nat.mod_lt n (by decide)
  cases here : m.at d (.frame (n / 1024) (n % 1024)) with
  | none => exact (map_works (x := []) single low column present here new).nodup nodup
  | some p =>
    -- The page that was there is taken in hand first, and then lost.
    have take := unmap_works (x := [e.page]) (e := .zero) single low column present here rfl
    have nodup1 := take.nodup nodup
    have single1 := holdings_nodup nodup1
    have apart := (tree_of_nodup single).apart _ (by omega) present
    have table : (m.setEntry (m.table d (n / 1024)).page (n % 1024) .zero).table d = m.table d := setEntry_page apart.symm
    have vacant : (m.setEntry (m.table d (n / 1024)).page (n % 1024) .zero).at d (.frame (n / 1024) (n % 1024)) = none := by
      rw [setEntry_at single (by omega) present (mem_frame.mpr ⟨low,column⟩),if_pos rfl]
      rfl
    have order : (pool [e.page,p] (m.setEntry (m.table d (n / 1024)).page (n % 1024) .zero) d).Nodup :=
      (List.Perm.swap p e.page _).nodup_iff.mpr nodup1
    have put := (map_works (x := [p]) (e := e) single1 low column (by rw [table]; exact present) vacant new).nodup order
    have twice : (m.setEntry (m.table d (n / 1024)).page (n % 1024) .zero).setEntry (m.table d (n / 1024)).page
        (n % 1024) e = m.setEntry (m.table d (n / 1024)).page (n % 1024) e := by
      simp [Vm.setEntry]
    rw [table,twice] at put
    exact (List.nodup_cons.mp put).2

theorem Anchored.unfixed (anchored : Anchored d m m') (unfixed : ¬Fixed m d p) : ¬Fixed m' d p := by
  rintro (same | ⟨i,high,low,present,page⟩)
  · exact unfixed (Or.inl same)
  · rw [anchored.directory i high low] at present page
    exact unfixed (Or.inr ⟨i,high,low,present,page⟩)

/-- `mappages` for a user page, with its frame in hand. -/
theorem mappages_anchored (nodup : (pool [mem] m d).Nodup) (user : n < 524288) {r : Bool}
    (ok : mappages m d (n * 4096) pgsize mem true true = .ok (r,m')) :
    Anchored d m m' ∧ (r = false → (pool [mem] m' d).Nodup) ∧ (r = true → (pool [] m' d).Nodup) := by
  obtain ⟨m1,works,tabled,rows,fail | ⟨present,done⟩⟩ := mappages_page nodup user mem true true
  · obtain ⟨rfl,rfl⟩ := Prod.mk.inj (Except.ok.inj (fail.symm.trans ok))
    exact ⟨tabled.anchored nodup user rows,fun _ => works.nodup nodup,fun h => absurd h Bool.false_ne_true⟩
  · obtain ⟨rfl,rfl⟩ := Prod.mk.inj (Except.ok.inj (done.symm.trans ok))
    have nodup1 := works.nodup nodup
    refine ⟨(tabled.anchored nodup user rows).trans (setEntry_anchored (holdings_nodup nodup1) user present),
      fun h => absurd h.symm Bool.false_ne_true,fun _ => ?_⟩
    exact remap_nodup (e := ⟨true,true,true,mem⟩) nodup1 user rfl present

theorem kalloc_anchored {rest : List Page} {r : List Bool} (nodup : (pool [] m d).Nodup) (free : m.freelist = mem :: rest) :
    Anchored d m (({ m with freelist := rest,refused := r } : Vm).clear mem) ∧
      (pool [mem] (({ m with freelist := rest,refused := r } : Vm).clear mem) d).Nodup := by
  have taken : (pool [mem] ({ m with freelist := rest,refused := r } : Vm) d).Nodup := by
    have same : holdings { m with freelist := rest,refused := r } d = holdings m d := rfl
    rw [pool,free] at nodup
    rw [pool,same]
    exact nodup
  have first : Anchored d m { m with freelist := rest,refused := r } :=
    ⟨fun _ _ _ => rfl,fun _ _ _ => rfl,fun _ _ => rfl⟩
  exact ⟨first.trans (clear_anchored taken),(clear_works taken List.mem_cons_self).nodup taken⟩

theorem deallocuvm_anchored (nodup : (pool x m d).Nodup) (limit : oldsz ≤ 2147483648) {r : Nat}
    (ok : deallocuvm m d oldsz newsz = .ok (r,m')) : Anchored d m m' ∧ (pool x m' d).Nodup := by
  rcases Nat.lt_or_ge newsz oldsz with less | more
  · obtain ⟨m1,done,works,reclaimed⟩ := deallocuvm_works nodup less.le limit
    obtain rfl := (Prod.mk.inj (Except.ok.inj (done.symm.trans ok))).2
    have top : pages oldsz ≤ 524288 := by
      unfold pages
      omega
    refine ⟨⟨fun i _ _ => by rw [reclaimed.directory],fun n high low => ?_,fun q fixed => reclaimed.frame q fun inside => ?_⟩,
      works.nodup nodup⟩
    · rw [reclaimed.entry n low]
      exact if_neg (by omega)
    · obtain ⟨k,_,upper,here⟩ := mem_frames.mp inside
      unfold mapped at here
      split at here
      · rename_i present
        exact frame_unfixed (holdings_nodup nodup) (Nat.lt_of_lt_of_le upper top) present (Option.some.inj here ▸ fixed)
      · cases here
  · unfold deallocuvm at ok
    rw [if_pos more] at ok
    obtain rfl := (Prod.mk.inj (Except.ok.inj ok)).2
    exact ⟨Anchored.refl d m,nodup⟩

theorem allocuvmLoop_anchored (nodup : (pool [] m d).Nodup) (limit : newsz ≤ 2147483648) (fuel : Nat) {r : Nat}
    (ok : allocuvmLoop d oldsz newsz fuel m (n * 4096) = .ok (r,m')) : Anchored d m m' ∧ (pool [] m' d).Nodup := by
  induction fuel generalizing m n with
  | zero => cases ok
  | succ fuel ih =>
    unfold allocuvmLoop at ok
    rcases Nat.lt_or_ge (n * 4096) newsz with more | done
    · have user : n < 524288 := page_low more limit
      rw [if_pos more] at ok
      rcases kalloc_cases m with ⟨r,none_left,_,_⟩ | ⟨mem,rest,r,free,taken,_⟩
      · rw [none_left] at ok
        dsimp only at ok
        split at ok
        · cases ok
        · rename_i back
          obtain rfl := (Prod.mk.inj (Except.ok.inj ok)).2
          have first : Anchored d m { m with refused := r } := ⟨fun _ _ _ => rfl,fun _ _ _ => rfl,fun _ _ => rfl⟩
          obtain ⟨anchored,nodup1⟩ := deallocuvm_anchored (x := []) (m := { m with refused := r }) nodup limit back
          exact ⟨first.trans anchored,nodup1⟩
      · obtain ⟨first,nodup1⟩ := kalloc_anchored (r := r) nodup free
        rw [taken] at ok
        dsimp only at ok
        split at ok
        · cases ok
        · rename_i m2 fail
          obtain ⟨second,nodup2,_⟩ := mappages_anchored nodup1 user fail
          split at ok
          · cases ok
          · rename_i back
            obtain rfl := (Prod.mk.inj (Except.ok.inj ok)).2
            obtain ⟨third,nodup3⟩ := deallocuvm_anchored (nodup2 rfl) limit back
            exact ⟨((first.trans second).trans third).trans (kfree_anchored nodup3),(kfree_works nodup3).nodup nodup3⟩
        · rename_i m2 mapped
          obtain ⟨second,_,nodup2⟩ := mappages_anchored nodup1 user mapped
          rw [next_page user] at ok
          obtain ⟨third,nodup3⟩ := ih (nodup2 rfl) ok
          exact ⟨(first.trans second).trans third,nodup3⟩
    · rw [if_neg (Nat.not_lt.mpr done)] at ok
      obtain rfl := (Prod.mk.inj (Except.ok.inj ok)).2
      exact ⟨Anchored.refl d m,nodup⟩

theorem allocuvm_anchored (nodup : (pool [] m d).Nodup) {r : Nat} (ok : allocuvm m d oldsz newsz = .ok (r,m')) :
    Anchored d m m' ∧ (pool [] m' d).Nodup := by
  unfold allocuvm at ok
  split at ok
  · obtain rfl := (Prod.mk.inj (Except.ok.inj ok)).2
    exact ⟨Anchored.refl d m,nodup⟩
  · rename_i limit
    split at ok
    · obtain rfl := (Prod.mk.inj (Except.ok.inj ok)).2
      exact ⟨Anchored.refl d m,nodup⟩
    · rename_i order
      have bound : newsz < 2147483648 := Nat.not_le.mp limit
      rw [pgroundup_eq (by omega)] at ok
      exact allocuvmLoop_anchored nodup bound.le _ ok

theorem inituvm_anchored (nodup : (pool [] m d).Nodup) {init : Buffer} {sz : Nat} (ok : inituvm m d init sz = .ok m') :
    Anchored d m m' ∧ (pool [] m' d).Nodup := by
  unfold inituvm at ok
  rcases kalloc_cases m with ⟨r,none_left,_,_⟩ | ⟨mem,rest,r,free,taken,_⟩
  · rw [none_left] at ok
    cases ok
  · obtain ⟨first,nodup1⟩ := kalloc_anchored (r := r) nodup free
    have hand := fun fixed : Fixed _ d mem => apart_of_pool nodup1 (Or.inl List.mem_cons_self) fixed.held
    rw [taken] at ok
    dsimp only at ok
    split at ok
    · cases ok
    · rename_i done m2 mapped
      obtain rfl := Except.ok.inj ok
      obtain ⟨second,nodup2,nodup3⟩ := mappages_anchored (n := 0) nodup1 (by decide) mapped
      refine ⟨(first.trans second).trans (setFrame_anchored (second.unfixed hand) _),?_⟩
      -- A page that could not be mapped is lost.
      cases done with
      | false => exact (List.nodup_cons.mp (nodup2 rfl)).2
      | true => exact nodup3 rfl

theorem clearpteu_anchored (nodup : (pool [] m d).Nodup) {uva : Nat} (user : uva < 2147483648)
    (ok : clearpteu m d uva = .ok m') : Anchored d m m' ∧ (pool [] m' d).Nodup := by
  refine ⟨?_,((clearpteu_spec nodup uva).elim ok).1.nodup nodup⟩
  unfold clearpteu at ok
  split at ok
  · cases ok
  · rename_i found
    obtain ⟨present,same⟩ := walkpgdir_some found
    obtain ⟨rfl,rfl⟩ := Prod.mk.inj same
    obtain rfl := Except.ok.inj ok
    have row : pdx uva = uva / 4096 / 1024 := by
      unfold pdx
      omega
    have column : ptx uva = uva / 4096 % 1024 := rfl
    rw [row] at present ⊢
    rw [column]
    exact setEntry_anchored (holdings_nodup nodup) (by omega) present

/-- Frames are written, and nothing else happens. -/
structure Written (d : Page) (m m' : Vm) : Prop where
  anchored : Anchored d m m'
  table : m'.table = m.table
  freelist : m'.freelist = m.freelist

theorem Written.pte (written : Written d m m') (n : Nat) : m'.pte d n = m.pte d n := by
  unfold Vm.pte
  rw [written.table]

theorem Written.nodup (written : Written d m m') (nodup : (pool x m d).Nodup) : (pool x m' d).Nodup := by
  rw [pool,written.freelist,holdings_table written.table]
  exact nodup

theorem Written.trans (first : Written d m m') (second : Written d m' m'') : Written d m m'' :=
  ⟨first.anchored.trans second.anchored,second.table.trans first.table,second.freelist.trans first.freelist⟩

theorem setFrame_written (nodup : (pool x m d).Nodup) (user : n < 524288) (present : (m.pte d n).present = true)
    (b : Buffer) : Written d m (m.setFrame (m.pte d n).page b) :=
  ⟨setFrame_anchored (frame_unfixed (holdings_nodup nodup) user present) b,rfl,rfl⟩

theorem loaduvmLoop_written {addr offset sz : Nat} {ip : Slot} (fuel : Nat) {fs fs' : FsState} {i : Nat} {r : Bool}
    (nodup : (pool x m d).Nodup) (limit : addr + sz ≤ 2147483648)
    (mapped : ∀ o < sz, (m.pte d ((addr + o) / 4096)).present = true)
    (ok : loaduvmLoop d addr ip offset sz fuel fs m i = .ok (r,fs',m')) : Written d m m' := by
  induction fuel generalizing fs m i with
  | zero => cases ok
  | succ fuel ih =>
    unfold loaduvmLoop at ok
    split at ok
    · rename_i more
      have here := mapped i more
      have address : u32 (addr + i) = addr + i := u32_of_lt (by omega)
      have user : (addr + i) / 4096 < 524288 := by omega
      have row : pdx (addr + i) = (addr + i) / 4096 / 1024 := by
        unfold pdx
        omega
      have column : ptx (addr + i) = (addr + i) / 4096 % 1024 := rfl
      have present := table_of_pte here
      have walk : (walkpgdir m d (addr + i) false).1 =
          some ((m.table d ((addr + i) / 4096 / 1024)).page,(addr + i) / 4096 % 1024) := by
        simp [walkpgdir,row,column,present]
      rw [address,walk] at ok
      dsimp only at ok
      rw [← pte_present present] at ok
      have step := setFrame_written nodup user here
        (readi fs ip (m.frame (m.pte d ((addr + i) / 4096)).page) (u32 (offset + i)) (min (sz - i) pgsize)).2.1
      split at ok
      · obtain ⟨_,rest⟩ := Prod.mk.inj (Except.ok.inj ok)
        obtain rfl := (Prod.mk.inj rest).2
        exact step
      · refine step.trans (ih (step.nodup nodup) (fun o low => ?_) ok)
        rw [step.pte]
        exact mapped o low
    · obtain ⟨_,rest⟩ := Prod.mk.inj (Except.ok.inj ok)
      obtain rfl := (Prod.mk.inj rest).2
      exact ⟨Anchored.refl d m,rfl,rfl⟩

/-- No kernel page is open to the user. -/
def Closed (m : Vm) (d : Page) : Prop := ∀ n, 524288 ≤ n → n < 1048576 → (m.pte d n).user = false

theorem Anchored.closed (anchored : Anchored d m m') (closed : Closed m d) : Closed m' d := by
  intro n high low
  rw [anchored.entry n high low]
  exact closed n high low

theorem copyoutLoop_written {p : Buffer} {len : Nat} (fuel : Nat) {va done : Nat} {r : Bool} (nodup : (pool x m d).Nodup)
    (closed : Closed m d) (start : va < 4294967296) (ok : copyoutLoop d p len fuel m va done = .ok (r,m')) :
    Written d m m' := by
  induction fuel generalizing m va done with
  | zero => cases ok
  | succ fuel ih =>
    have low : va / 4096 < 1048576 := by omega
    unfold copyoutLoop at ok
    split at ok
    · rw [pgrounddown_page] at ok
      dsimp only at ok
      cases present : (m.table d (va / 4096 / 1024)).present with
      | false =>
        rw [uva2ka_absent low present] at ok
        cases ok
      | true =>
        rw [uva2ka_present low present] at ok
        split at ok
        · cases ok
        · obtain rfl := (Prod.mk.inj (Except.ok.inj ok)).2
          exact ⟨Anchored.refl d m,rfl,rfl⟩
        · rename_i page found
          have reached := Except.ok.inj found
          split at reached
          · rename_i good
            obtain rfl := Option.some.inj reached
            have user : va / 4096 < 524288 := by
              by_contra high
              rw [closed _ (Nat.not_lt.mp high) low] at good
              exact absurd good.2 Bool.false_ne_true
            have step := fun b => setFrame_written nodup user good.1 b
            exact (step _).trans (ih ((step _).nodup nodup) ((step _).anchored.closed closed) (u32_lt _) ok)
          · cases reached
    · obtain rfl := (Prod.mk.inj (Except.ok.inj ok)).2
      exact ⟨Anchored.refl d m,rfl,rfl⟩

end anchored

/-- A call on the page directory `d`, with arguments such as `uinit` and `exec` give: sizes are at most
`KERNBASE`, and a segment is loaded where pages are mapped. -/
inductive Use (d : Page) : Vm → Vm → Prop
  | inituvm (m m' : Vm) (init : Buffer) (sz : Nat) (ok : inituvm m d init sz = .ok m') : Use d m m'
  | allocuvm (m m' : Vm) (oldsz newsz r : Nat) (ok : allocuvm m d oldsz newsz = .ok (r,m')) : Use d m m'
  | deallocuvm (m m' : Vm) (oldsz newsz r : Nat) (limit : oldsz ≤ kernbase)
      (ok : deallocuvm m d oldsz newsz = .ok (r,m')) : Use d m m'
  | loaduvm (fs fs' : FsState) (m m' : Vm) (addr : Nat) (ip : Slot) (offset sz : Nat) (r : Bool)
      (limit : addr + sz ≤ kernbase) (mapped : ∀ o < sz, (m.pte d ((addr + o) / pgsize)).present = true)
      (ok : loaduvm fs m d addr ip offset sz = .ok (r,fs',m')) : Use d m m'
  | clearpteu (m m' : Vm) (uva : Nat) (user : uva < kernbase) (ok : clearpteu m d uva = .ok m') : Use d m m'
  | copyout (m m' : Vm) (va : Nat) (p : Buffer) (len : Nat) (r : Bool) (start : va < 4294967296)
      (ok : copyout m d va p len = .ok (r,m')) : Use d m m'

section uses
variable {d : Page} {m m' : Vm} {data : Nat}

theorem Use.anchored (use : Use d m m') (nodup : (pool [] m d).Nodup) (closed : Closed m d) :
    Anchored d m m' ∧ (pool [] m' d).Nodup := by
  cases use with
  | inituvm _ _ init sz ok => exact inituvm_anchored nodup ok
  | allocuvm _ _ oldsz newsz r ok => exact allocuvm_anchored nodup ok
  | deallocuvm _ _ oldsz newsz r limit ok => exact deallocuvm_anchored nodup limit ok
  | loaduvm fs fs' _ _ addr ip offset sz r limit mapped ok =>
    have written := loaduvmLoop_written _ nodup limit mapped ok
    exact ⟨written.anchored,written.nodup nodup⟩
  | clearpteu _ _ uva user ok => exact clearpteu_anchored nodup user ok
  | copyout _ _ va p len r start ok =>
    have written := copyoutLoop_written _ nodup closed start ok
    exact ⟨written.anchored,written.nodup nodup⟩

theorem uses_anchored (uses : Relation.ReflTransGen (Use d) m m') (nodup : (pool [] m d).Nodup) (closed : Closed m d) :
    Anchored d m m' ∧ (pool [] m' d).Nodup := by
  induction uses with
  | refl => exact ⟨Anchored.refl d m,nodup⟩
  | tail _ use ih =>
    obtain ⟨before,nodup1⟩ := ih
    obtain ⟨after,nodup2⟩ := use.anchored nodup1 (before.closed closed)
    exact ⟨before.trans after,nodup2⟩

/-- `setupkvm` takes nothing, or makes the kernel's half, which stays whatever is done to the user's half. -/
theorem setupkvm_stays (data : Nat) (linked : Linked data) (m : Vm) (single : m.freelist.Nodup) :
    (∃ m', setupkvm data m = .ok (none,m') ∧ m'.freelist.Perm m.freelist) ∨
      ∃ d m', setupkvm data m = .ok (some d,m') ∧ Upper data m' d ∧
        ∀ m'', Relation.ReflTransGen (Use d) m' m'' → Anchored d m' m'' := by
  rcases setupkvm_upper linked single with none_left | ⟨d,m',ok,nodup,upper⟩
  · exact Or.inl none_left
  · exact Or.inr ⟨d,m',ok,upper,fun m'' uses => (uses_anchored uses nodup fun n _ low => upper.user n low).1⟩

end uses

/-- A free list of 600 pages, and a kernel of one page of code. -/
def roomy : Vm := ⟨fun _ _ => .zero,fun _ => zeros,List.range' 1 600,[]⟩

theorem linked_page : Linked 2148536320 := ⟨by decide,by decide,by decide⟩

theorem setupkvm_stays_roomy : ∃ d m', setupkvm 2148536320 roomy = .ok (some d,m') ∧ Upper 2148536320 m' d ∧
    ∀ m'', Relation.ReflTransGen (Use d) m' m'' → Anchored d m' m'' := by
  have single : roomy.freelist.Nodup := List.nodup_range'
  refine (setupkvm_stays 2148536320 linked_page roomy single).resolve_left ?_
  rintro ⟨m',none_left,_⟩
  obtain ⟨_,_,⟨_,_,poor⟩ | ⟨d,ok,_⟩⟩ := setupkvm_spec (x := []) (m := roomy) linked_page single
  · exact poor ⟨rfl,by simp [roomy]⟩
  · rw [none_left] at ok
    cases ok

end Lxos.Kernel
