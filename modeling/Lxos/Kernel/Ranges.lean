import Lxos.Kernel.Growth

/-! `mappages` over any range: the pages that get their entries are the first ones of the
range, all of them unless memory runs out, and nothing else is mapped otherwise. -/
namespace Lxos.Kernel
open Lxos.Fs

section range
variable {d : Page} {m m' m'' : Vm} {first last n pa done : Nat} {e : Entry} {writable user : Bool}

theorem Planted.congr (planted : Planted m d) (directory : m'.table d = m.table d) (free : m'.freelist = m.freelist) :
    Planted m' d where
  toTree := planted.toTree.congr directory
  root := free ▸ planted.root
  tables := by
    rw [directory,free]
    exact planted.tables
  linked := free ▸ planted.linked

theorem setEntry_planted (planted : Planted m d) (low : n < 1048576) (present : (m.table d (n / 1024)).present = true) :
    Planted (m.setEntry (m.table d (n / 1024)).page (n % 1024) e) d :=
  planted.congr (setEntry_page (planted.apart _ (row_lt low) present).symm) rfl

/-- The entries of `done` pages from `first` on lead to the pages from `pa` on; the other
entries are those of before. -/
def Ranged (d : Page) (writable user : Bool) (first done pa : Nat) (m m' : Vm) : Prop :=
  ∀ k < 1048576, m'.pte d k =
    if first ≤ k ∧ k < first + done then ⟨true,writable,user,(pa + (k - first)) % 1048576⟩ else m.pte d k

theorem Tabled.ranged (tabled : Tabled d m m') : Ranged d writable user first 0 pa m m' := by
  intro k low
  rw [if_neg (by omega),tabled.entry k low]

/-- One page first, and then the others. -/
theorem Ranged.cons (small : pa < 1048576)
    (page : ∀ k < 1048576, m'.pte d k = if k = first then ⟨true,writable,user,pa⟩ else m.pte d k)
    (rest : Ranged d writable user (first+1) done ((pa+1) % 1048576) m' m'') :
    Ranged d writable user first (done+1) pa m m'' := by
  intro k low
  rw [rest k low]
  rcases Nat.lt_trichotomy k first with below | rfl | above
  · rw [if_neg (by omega),if_neg (by omega),page k low,if_neg (by omega)]
  · rw [if_neg (by omega),if_pos (by omega),page k low,if_pos rfl,Nat.sub_self,Nat.add_zero,Nat.mod_eq_of_lt small]
  · rcases Nat.lt_or_ge k (first + (done+1)) with inside | beyond
    · have number : ((pa+1) % 1048576 + (k - (first+1))) % 1048576 = (pa + (k - first)) % 1048576 := by omega
      rw [if_pos (by omega),if_pos (by omega),number]
    · rw [if_neg (by omega),if_neg (by omega),page k low,if_neg (by omega)]

theorem Ranged.one (small : pa < 1048576)
    (page : ∀ k < 1048576, m'.pte d k = if k = first then ⟨true,writable,user,pa⟩ else m.pte d k) :
    Ranged d writable user first 1 pa m m' :=
  Ranged.cons small page (Tabled.refl d m').ranged

/-- The loop ends, at `last` or where no page is left for a table. -/
theorem mappagesLoop_ranged (fuel : Nat) (planted : Planted m d) (order : first ≤ last) (top : last < 1048576)
    (enough : last - first < fuel) (small : pa < 1048576) : ∃ b m' done,
      mappagesLoop d (last * 4096) writable user fuel m (first * 4096) pa = .ok (b,m') ∧ Planted m' d ∧
        done ≤ last + 1 - first ∧ (b = true ↔ done = last + 1 - first) ∧ Ranged d writable user first done pa m m' := by
  induction fuel generalizing m first pa with
  | zero => omega
  | succ fuel ih =>
    have low : first < 1048576 := Nat.lt_of_le_of_lt order top
    have tabled := walkpgdir_tabled planted low
    have planted1 := walkpgdir_planted planted low
    unfold mappagesLoop
    generalize found : walkpgdir m d (first * 4096) true = r at tabled planted1
    obtain ⟨entry,m1⟩ := r
    cases entry with
    | none => exact ⟨false,m1,0,rfl,planted1,Nat.zero_le _,by simp; omega,tabled.ranged⟩
    | some entry =>
      obtain ⟨present,rfl⟩ := walkpgdir_table low found
      have page (k : Nat) (bound : k < 1048576) : (m1.setEntry (m1.table d (first / 1024)).page (first % 1024)
          ⟨true,writable,user,pa⟩).pte d k = if k = first then ⟨true,writable,user,pa⟩ else m.pte d k := by
        rw [pte_setEntry planted1.toTree low present bound,tabled.entry k bound]
      have put := setEntry_planted (e := ⟨true,writable,user,pa⟩) planted1 low present
      dsimp only
      rcases eq_or_ne first last with rfl | more
      · rw [if_pos rfl]
        exact ⟨true,_,1,rfl,put,by omega,by simp,Ranged.one small page⟩
      · have apart : first * 4096 ≠ last * 4096 := fun same => more (Nat.eq_of_mul_eq_mul_right (by decide) same)
        have next : u32 (first * 4096 + pgsize) = (first + 1) * 4096 := by
          have width : first * 4096 + 4096 < 4294967296 := by omega
          exact (u32_of_lt width).trans (Nat.succ_mul first 4096).symm
        rw [if_neg apart,next]
        obtain ⟨b,m2,done,ok,planted2,few,all,rest⟩ := ih put (by omega : first + 1 ≤ last) (by omega)
          (Nat.mod_lt (pa+1) (by decide : 0 < 1048576))
        exact ⟨b,m2,done + 1,ok,planted2,by omega,by rw [all]; omega,Ranged.cons small page rest⟩

/-- What the processor finds afterwards. -/
theorem Ranged.translate (ranged : Ranged d writable user first done pa m m') {a : Nat} (low : a < 4294967296) :
    translate m' d a = if first ≤ a / 4096 ∧ a / 4096 < first + done
      then some ((pa + (a / 4096 - first)) % 1048576,a % 4096) else translate m d a := by
  rw [translate_eq low,translate_eq low,ranged (a / 4096) (by omega)]
  split
  · rfl
  · rfl

end range

/-- From `va` on, which need not be aligned, `size` bytes up to the end of the address space at
most. All pages of the range are mapped or, where a table cannot be had, those before it. -/
theorem mappages_spec (m : Vm) (d : Page) (va size : Nat) (pa : Page) (writable user : Bool) (planted : Planted m d)
    (some_bytes : 0 < size) (room : va + size ≤ 4294967296) (physical : pa < 1048576) : ∃ b m' done,
    mappages m d va size pa writable user = .ok (b,m') ∧
      done ≤ (va + size - 1) / 4096 + 1 - va / 4096 ∧ (b = true ↔ done = (va + size - 1) / 4096 + 1 - va / 4096) ∧
      (∀ k < 1048576, m'.pte d k = if va / 4096 ≤ k ∧ k < va / 4096 + done
        then ⟨true,writable,user,(pa + (k - va / 4096)) % 1048576⟩ else m.pte d k) ∧
      ∀ a < 4294967296, translate m' d a = if va / 4096 ≤ a / 4096 ∧ a / 4096 < va / 4096 + done
        then some ((pa + (a / 4096 - va / 4096)) % 1048576,a % 4096) else translate m d a := by
  have last : pgrounddown (u32 (va + size + 4294967295)) = (va + size - 1) / 4096 * 4096 := by
    have : u32 (va + size + 4294967295) = va + size - 1 := by
      unfold u32
      omega
    rw [this]
    rfl
  unfold mappages
  rw [last]
  obtain ⟨b,m',done,ok,_,few,all,ranged⟩ := @mappagesLoop_ranged d m (va / 4096) ((va + size - 1) / 4096) pa writable user 1048576
    planted (by omega) (by omega) (by omega) physical
  exact ⟨b,m',done,ok,few,all,ranged,fun a low => ranged.translate low⟩

/-- A range over three tables, with pages for two. -/
theorem mappages_spec_bare : ∃ b m' done, mappages bare 5 4194303 4194306 1048000 true true = .ok (b,m') ∧
    done ≤ (4194303 + 4194306 - 1) / 4096 + 1 - 4194303 / 4096 ∧
      (b = true ↔ done = (4194303 + 4194306 - 1) / 4096 + 1 - 4194303 / 4096) ∧
      (∀ k < 1048576, m'.pte 5 k = if 4194303 / 4096 ≤ k ∧ k < 4194303 / 4096 + done
        then ⟨true,true,true,(1048000 + (k - 4194303 / 4096)) % 1048576⟩ else bare.pte 5 k) ∧
      ∀ a < 4294967296, translate m' 5 a = if 4194303 / 4096 ≤ a / 4096 ∧ a / 4096 < 4194303 / 4096 + done
        then some ((1048000 + (a / 4096 - 4194303 / 4096)) % 1048576,a % 4096) else translate bare 5 a :=
  mappages_spec bare 5 4194303 4194306 1048000 true true (planted_of_pool bare_nodup) (by decide) (by decide) (by decide)

end Lxos.Kernel
