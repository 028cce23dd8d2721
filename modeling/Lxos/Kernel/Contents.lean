import Lxos.Kernel.Copyout
import Lxos.Kernel.Loader

/-! What an address space holds. Its first pages are mapped, each to a frame of its own,
and together they are one memory, zero past the last of them. -/
namespace Lxos.Kernel
open Lxos.Bytes Lxos.Fs Lxos.Outcome Lxos.Inventory

/-- The first `n` pages hold the bytes `b`; `open_` tells which of them the user may use. -/
structure Contents (m : Vm) (d : Page) (n : Nat) (open_ : Nat → Bool) (b : Buffer) : Prop where
  single : (holdings m d).Nodup
  sealing : Sealed m d
  bound : n ≤ 524288
  entry : ∀ k < n, ∃ p, m.pte d k = ⟨true,true,open_ k,p⟩
  vacant : ∀ k < 524288, n ≤ k → (m.pte d k).present = false
  byte : ∀ a < n * 4096, m.frame (frameOf m d a) (a % 4096) = b a
  rest : ∀ a, n * 4096 ≤ a → b a = 0

section holds
variable {m m' : Vm} {d : Page} {n k g va len o a oldsz newsz r : Nat} {open_ : Nat → Bool} {b p : Buffer}

theorem Contents.present (holds : Contents m d n open_ b) (low : k < n) : (m.pte d k).present = true := by
  obtain ⟨q,entry⟩ := holds.entry k low
  rw [entry]

theorem Contents.frame_single (holds : Contents m d n open_ b) {j : Nat} (low : k < n) (low' : j < n)
    (same : (m.pte d k).page = (m.pte d j).page) : k = j := by
  have bound := holds.bound
  have here : mapped m d k = some (m.pte d k).page := if_pos (holds.present low)
  have there : mapped m d j = some (m.pte d j).page := if_pos (holds.present low')
  exact mapped_single holds.single (by omega) (by omega) here (same ▸ there)

theorem Contents.held (holds : Contents m d n open_ b) (low : k < n) : (m.pte d k).page ∈ holdings m d := by
  have bound := holds.bound
  obtain ⟨inside,here⟩ := at_page (by omega : k < 524288) (holds.present low)
  exact mem_holdings.mpr (Or.inr ⟨_,inside,here⟩)

theorem Contents.extent (holds : Contents m d n open_ b) : Extent m d n := by
  intro i row j column
  have user : i * 1024 + j < 524288 := by omega
  rw [at_frame_eq column]
  rcases Nat.lt_or_ge (i * 1024 + j) n with low | high
  · rw [if_pos (holds.present low)]
    exact iff_of_true rfl low
  · rw [if_neg (by rw [holds.vacant _ user high]; decide)]
    exact iff_of_false Bool.false_ne_true (Nat.not_lt.mpr high)

/-- Which addresses the user may use. -/
theorem Contents.usable_iff (holds : Contents m d n open_ b) (low : a < 4294967296) :
    Usable m d a ↔ a / 4096 < n ∧ open_ (a / 4096) = true := by
  have bound := holds.bound
  unfold Usable
  constructor
  · rintro ⟨present,user⟩
    have table := table_of_pte present
    have inside : a / 4096 < n := by
      by_contra outside
      rcases Nat.lt_or_ge (a / 4096) 524288 with half | kernel
      · rw [holds.vacant _ half (Nat.not_lt.mp outside)] at present
        cases present
      · rw [pte_present table,holds.sealing _ (by omega) (by omega) table] at user
        cases user
    obtain ⟨q,entry⟩ := holds.entry _ inside
    rw [entry] at user
    exact ⟨inside,user⟩
  · rintro ⟨inside,user⟩
    obtain ⟨q,entry⟩ := holds.entry _ inside
    rw [entry]
    exact ⟨rfl,user⟩

theorem Contents.separate (holds : Contents m d n open_ b) : Separate m d := by
  have bound := holds.bound
  constructor
  · intro a low c low' here there same
    exact holds.frame_single ((holds.usable_iff low).mp here).1 ((holds.usable_iff low').mp there).1 same
  · intro a low here
    have inside := ((holds.usable_iff low).mp here).1
    exact frame_apart holds.single (by omega) (holds.present inside)

/-- Changes outside the address space. -/
theorem Contents.congr (holds : Contents m d n open_ b) (table : ∀ q ∈ holdings m d, m'.table q = m.table q)
    (frame : ∀ q ∈ holdings m d, m'.frame q = m.frame q) : Contents m' d n open_ b := by
  have bound := holds.bound
  have directory := table d List.mem_cons_self
  have entry (k : Nat) (low : k < 1048576) : m'.pte d k = m.pte d k := pte_outside table low
  refine ⟨?_,fun i high low present j => ?_,bound,fun k low => ?_,fun k low => ?_,fun a low => ?_,holds.rest⟩
  · rw [holdings_outside table]
    exact holds.single
  · rw [directory] at present ⊢
    rw [table _ (mem_holdings.mpr (Or.inr ⟨_,mem_table.mpr low,at_table present⟩))]
    exact holds.sealing i high low present j
  · rw [entry k (by omega)]
    exact holds.entry k low
  · rw [entry k (by omega)]
    exact holds.vacant k low
  · have inside : a / 4096 < n := by omega
    have same : frameOf m' d a = frameOf m d a := by rw [frameOf,frameOf,entry _ (by omega)]
    rw [same,frameOf,frame _ (holds.held inside)]
    exact holds.byte a low

/-- Bytes are written, whatever the user may do with them. -/
theorem Contents.store (holds : Contents m d n open_ b) (table : m'.table = m.table) (inside : va + len ≤ n * 4096)
    (written : ∀ i < len, m'.frame (frameOf m d (va + i)) ((va + i) % 4096) = p i)
    (other : ∀ q o, (∀ i < len, ¬(q = frameOf m d (va + i) ∧ o = (va + i) % 4096)) → m'.frame q o = m.frame q o) :
    Contents m' d n open_ (blit b va len p) := by
  have bound := holds.bound
  have entry (k : Nat) : m'.pte d k = m.pte d k := by
    unfold Vm.pte
    rw [table]
  refine ⟨?_,fun i => ?_,bound,fun k low => ?_,fun k low => ?_,fun a low => ?_,fun a high => ?_⟩
  · rw [holdings_table table]
    exact holds.single
  · rw [table]
    exact holds.sealing i
  · rw [entry]
    exact holds.entry k low
  · rw [entry]
    exact holds.vacant k low
  · have same : frameOf m' d a = frameOf m d a := by rw [frameOf,frameOf,entry]
    rw [same]
    by_cases here : va ≤ a ∧ a < va + len
    · obtain ⟨i,rfl⟩ := Nat.exists_eq_add_of_le here.1
      rw [blit_inside (by omega)]
      exact written i (by omega)
    · rw [blit_outside (by omega),other]
      · exact holds.byte a low
      · rintro i small ⟨frame,offset⟩
        have page := holds.frame_single (by omega : a / 4096 < n) (by omega : (va + i) / 4096 < n) frame
        omega
  · rw [blit_outside (by omega)]
    exact holds.rest a high

/-- Some bytes of one page. -/
theorem Contents.setFrame (holds : Contents m d n open_ b) (low : k < n) (inside : o + len ≤ 4096) (p : Buffer) :
    Contents (m.setFrame (m.pte d k).page (blit (m.frame (m.pte d k).page) o len p)) d n open_
      (blit b (k * 4096 + o) len p) := by
  have place (i : Nat) (small : i < len) : frameOf m d (k * 4096 + o + i) = (m.pte d k).page ∧
      (k * 4096 + o + i) % 4096 = o + i := by
    have page : (k * 4096 + o + i) / 4096 = k := by omega
    exact ⟨by rw [frameOf,page],by omega⟩
  refine holds.store rfl (by omega) (fun i small => ?_) fun q c out => ?_
  · rw [(place i small).1,(place i small).2]
    change Function.update m.frame _ _ _ _ = p i
    rw [Function.update_self]
    exact blit_inside small
  · change Function.update m.frame _ _ q c = _
    rcases eq_or_ne q (m.pte d k).page with rfl | other
    · rw [Function.update_self]
      apply blit_outside
      by_contra overlap
      have small : c - o < len := by omega
      exact out (c - o) small ⟨(place _ small).1.symm,by rw [(place _ small).2]; omega⟩
    · rw [Function.update_of_ne other]

theorem Contents.copied (holds : Contents m d n open_ b) (copied : Copied m d va p len m') (inside : va + len ≤ n * 4096) :
    Contents m' d n open_ (blit b va len p) := by
  have bound := holds.bound
  have plain (i : Nat) (small : i < len) : u32 (va + i) = va + i := u32_of_lt (by omega)
  refine holds.store copied.table inside (fun i small => ?_) fun q c out => copied.other q c fun i small => ?_
  · have byte := copied.byte i small
    rw [plain i small] at byte
    exact byte
  · rw [plain i small]
    exact out i small

/-- Pages are added, which are zero. -/
theorem Contents.alloc (holds : Contents m d (pages oldsz) open_ b) (all : open_ = fun _ => true) (nodup : (pool [] m d).Nodup)
    (low : oldsz < 2147483648) (ok : allocuvm m d oldsz newsz = .ok (r,m')) (grown : r ≠ 0) :
    r < 2147483648 ∧ r = max oldsz newsz ∧ Works d [] [] m m' ∧ (Sealed m d → Sealed m' d) ∧
      Contents m' d (pages r) open_ b := by
  obtain ⟨_,_,ok',works,sealing,s,limit,_,more,result⟩ := allocuvm_spec (x := []) nodup low holds.extent newsz
  obtain ⟨rfl,rfl⟩ := Prod.mk.inj (Except.ok.inj (ok.symm.trans ok'))
  obtain ⟨rfl,enough⟩ := result.resolve_left grown
  refine ⟨limit,?_⟩
  have nodup' := works.nodup nodup
  have top : pages r ≤ 524288 := by
    unfold pages
    omega
  rcases Nat.lt_or_ge newsz oldsz with less | order
  · unfold allocuvm at ok
    rw [if_neg (by change ¬newsz ≥ 2147483648; omega),if_pos less] at ok
    obtain ⟨rfl,rfl⟩ := Prod.mk.inj (Except.ok.inj ok)
    exact ⟨(max_eq_left less.le).symm,works,sealing,holds⟩
  obtain ⟨_,_,ok2,⟨rfl,grows⟩ | ⟨rfl,_⟩⟩ := allocuvm_grows nodup order (by omega) fun k user high => holds.vacant k user high
  · obtain ⟨rfl,rfl⟩ := Prod.mk.inj (Except.ok.inj (ok.symm.trans ok2))
    have old (k : Nat) (below : k < pages oldsz) : m'.pte d k = m.pte d k := by
      have same := grows.mapping k (by have := holds.bound; omega) (by omega)
      rw [mapping_some rfl (holds.present below)] at same
      exact (pte_of_mapping same).1
    refine ⟨(max_eq_right order).symm,works,sealing,?_⟩
    refine ⟨holdings_nodup nodup',sealing holds.sealing,top,fun k below => ?_,fun k user high => ?_,fun a below => ?_,
      fun a high => holds.rest a ?_⟩
    · rcases Nat.lt_or_ge k (pages oldsz) with before | new
      · rw [old k before]
        exact holds.entry k before
      · obtain ⟨q,_,pte,_⟩ := grows.fresh k new below
        exact ⟨q,by rw [pte,all]⟩
    · have wide : pages oldsz ≤ k := (pages_mono more).trans high
      have same := grows.mapping k (by omega) (by omega)
      rw [mapping_none (holds.vacant k user wide)] at same
      exact absent_of_mapping same
    · rcases Nat.lt_or_ge (a / 4096) (pages oldsz) with before | new
      · have same : frameOf m' d a = frameOf m d a := by rw [frameOf,frameOf,old _ before]
        have kept : m'.frame (frameOf m d a) = m.frame (frameOf m d a) :=
          grows.frame _ fun free => apart_of_pool nodup (Or.inr free) (holds.held before)
        rw [same,kept]
        exact holds.byte a ((Nat.div_lt_iff_lt_mul (by decide)).mp before)
      · obtain ⟨q,_,pte,zero⟩ := grows.fresh (a / 4096) new (by omega)
        rw [frameOf,pte,zero]
        exact (holds.rest a ((Nat.le_div_iff_mul_le (by decide)).mp new)).symm
    · exact (Nat.mul_le_mul_right 4096 (pages_mono more)).trans high
  · obtain ⟨same,_⟩ := Prod.mk.inj (Except.ok.inj (ok.symm.trans ok2))
    exact absurd same grown

/-- A page is taken from the user. -/
theorem Contents.clear (holds : Contents m d n (fun _ => true) b) (nodup : (pool [] m d).Nodup) (low : g < n)
    (ok : clearpteu m d (g * 4096) = .ok m') :
    Works d [] [] m m' ∧ (Sealed m d → Sealed m' d) ∧ Contents m' d n (fun k => decide (k ≠ g)) b := by
  have bound := holds.bound
  obtain ⟨works,sealing,_⟩ := (clearpteu_spec nodup (g * 4096)).elim ok
  refine ⟨works,sealing,?_⟩
  have table : (m.table d (g / 1024)).present = true := table_of_pte (holds.present low)
  have tree := tree_of_nodup holds.single
  unfold clearpteu at ok
  rw [walkpgdir_found (by rw [pdx_page (by omega)]; exact table),pdx_page (by omega),ptx_page] at ok
  dsimp only at ok
  obtain rfl := Except.ok.inj ok
  have same : m.table (m.table d (g / 1024)).page (g % 1024) = m.pte d g := (pte_present table).symm
  rw [same]
  have entry (k : Nat) (below : k < 1048576) := pte_setEntry (e := { m.pte d g with user := false }) tree
    (by omega : g < 1048576) table below
  have page (k : Nat) (below : k < 1048576) : ((m.setEntry (m.table d (g / 1024)).page (g % 1024)
      { m.pte d g with user := false }).pte d k).page = (m.pte d k).page := by
    rw [entry k below]
    split
    · rename_i here
      rw [here]
    · rfl
  refine ⟨holdings_nodup (same ▸ works.nodup nodup),same ▸ sealing holds.sealing,bound,fun k below => ?_,fun k user high => ?_,
    fun a below => ?_,holds.rest⟩
  · obtain ⟨q,pte⟩ := holds.entry k below
    refine ⟨q,?_⟩
    rw [entry k (by omega)]
    split
    · rename_i here
      rw [← here,pte]
      simp
    · rename_i away
      rw [pte]
      simp [away]
  · rw [entry k (by omega),if_neg (by omega)]
    exact holds.vacant k user high
  · rw [frameOf,page _ (by omega)]
    exact holds.byte a below

end holds

end Lxos.Kernel
