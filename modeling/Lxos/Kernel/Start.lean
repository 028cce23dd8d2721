import Lxos.Kernel.Isolation

/-! From boot on. The allocator is handed two ranges of pages, and in every state of
every run each of them is where it belongs. -/
namespace Lxos.Kernel
open Lxos.Bytes Lxos.Fs Lxos.Outcome Lxos.Inventory

/-- The pages that `kinit1` and `kinit2` free; `first` is the first after the kernel. -/
def managed (first : Page) : List Page := List.range' first (1024 - first) ++ List.range' 1024 56320

theorem managed_nodup (first : Page) : (managed first).Nodup := by
  have single (p n : Nat) : (List.range' p n).Nodup := List.nodup_range'
  refine (single _ _).append (single _ _) fun p low high => ?_
  have := List.mem_range'_1.mp low
  have := List.mem_range'_1.mp high
  omega

section boot
variable {data size : Nat} {first p d : Page} {init : Buffer} {m : Vm} {disk : Nat → Nat → Block} {stack : Buffer}

theorem freerange_spec (m : Vm) (p n : Nat) :
    (freerange m p n).freelist.Perm (List.range' p n ++ m.freelist) ∧ (freerange m p n).refused = m.refused ∧
      ∀ q : Nat, q < p ∨ p + n ≤ q → (freerange m p n).table q = m.table q := by
  induction n generalizing m p with
  | zero =>
    unfold freerange
    exact ⟨List.Perm.refl _,rfl,fun _ _ => rfl⟩
  | succ n ih =>
    obtain ⟨free,refused,table⟩ := ih (kfree m p) (p+1)
    unfold freerange
    refine ⟨free.trans List.perm_middle,refused,fun q away => ?_⟩
    have apart : q ≠ p := by omega
    rw [table q (by omega)]
    exact Function.update_of_ne apart _ _

theorem kinit2_spec (m : Vm) :
    (kinit2 m).freelist.Perm (List.range' 1024 56320 ++ m.freelist) ∧ (kinit2 m).refused = m.refused ∧
      ∀ q : Nat, q < 1024 → (kinit2 m).table q = m.table q := by
  have count : 57344 - 1024 = 56320 := rfl
  have spec := freerange_spec m 1024 56320
  unfold kinit2
  rw [count]
  exact ⟨spec.1,spec.2.1,fun q low => spec.2.2 q (Or.inl low)⟩

/-- A willing allocator gives pages until there are none. -/
theorem kalloc_willing (willing : m.refused = []) (some_left : 0 < m.freelist.length) :
    ∃ p rest, m.freelist = p :: rest ∧ kalloc m = (some p,{ m with freelist := rest,refused := [] }) := by
  rcases kalloc_cases m with ⟨r,_,refusal | empty,_⟩ | ⟨p,rest,r,free,taken,still⟩
  · rw [willing] at refusal
    cases refusal
  · rw [empty] at some_left
    cases some_left
  · rw [still willing] at taken
    exact ⟨p,rest,free,taken⟩

/-- A directory holds its tables and its first pages at most. -/
theorem Extent.few {n : Nat} (single : (holdings m d).Nodup) (extent : Extent m d n) : (holdings m d).length ≤ n + 1025 := by
  have listed : holdings m d ⊆ d :: ((List.range 1024).map (fun i => (m.table d i).page) ++
      (List.range n).map fun k => (m.table (m.table d (k / 1024)).page (k % 1024)).page) := by
    intro p owned
    rcases mem_holdings.mp owned with rfl | ⟨place,inside,here⟩
    · exact List.mem_cons_self
    refine List.mem_cons_of_mem _ (List.mem_append.mpr ?_)
    cases place with
    | table i =>
      refine Or.inl (List.mem_map.mpr ⟨i,List.mem_range.mpr (mem_table.mp inside),?_⟩)
      simp only [Vm.at] at here
      split at here
      · exact Option.some.inj here
      · cases here
    | frame i j =>
      obtain ⟨row,column⟩ := mem_frame.mp inside
      have low := (extent i row j column).mp (by rw [here]; rfl)
      refine Or.inr (List.mem_map.mpr ⟨i * 1024 + j,List.mem_range.mpr low,?_⟩)
      rw [show (i * 1024 + j) / 1024 = i by omega,show (i * 1024 + j) % 1024 = j by omega]
      simp only [Vm.at] at here
      split at here
      · exact Option.some.inj here
      · cases here
  have count := (single.subperm listed).length_le
  simp only [List.length_cons,List.length_append,List.length_map,List.length_range] at count
  omega

/-- The page of the first process is mapped, since there are pages left. -/
theorem inituvm_spec (nodup : (pool [] m d).Nodup) (empty : Extent m d 0) (willing : m.refused = [])
    (many : 1 < m.freelist.length) :
    ∃ m', inituvm m d init size = .ok m' ∧ Works d [] [] m m' ∧ Extent m' d 1 := by
  obtain ⟨mem,rest,free,taken⟩ := kalloc_willing willing (by omega)
  obtain ⟨m1,_,⟨_,_,_,refusal | none_left⟩ | ⟨ok,works,extent⟩⟩ :=
    growPage_spec (x := []) (r := []) nodup empty (by omega) free (fun _ => rfl)
  · cases refusal
  · rw [free,none_left] at many
    exact absurd many (Nat.lt_irrefl 1)
  · unfold inituvm
    rw [taken]
    rw [Nat.zero_mul] at ok
    dsimp only
    rw [ok]
    have inside : mem ∈ pool [] m1 d := by
      refine works.conserve.mem_iff.mpr (mem_pool.mpr (Or.inr (Or.inl ?_)))
      rw [free]
      exact List.mem_cons_self
    exact ⟨_,rfl,works.trans (setFrame_works inside _),extent⟩

/-- What boot leaves behind. It can only fail for want of pages for the kernel's own
tables, which have to lie between the end of the kernel and 4 MB. -/
theorem boot_leaves (linked : Linked data) (fresh : m.freelist = []) (willing : m.refused = []) :
    Meets (fun _ => (511 : Nat) < first) (boot data first init size (cold disk stack) m)
      (fun r => (Paged (managed first) r.1 r.2 ∧ Safe Counted r.2) ∧ 55000 ≤ r.2.vm.freelist.length) := by
  obtain ⟨free1,refused1,_⟩ := freerange_spec m first (1024 - first)
  have range : kinit1 m first = freerange m first (1024 - first) := rfl
  rw [← range] at free1 refused1
  rw [fresh,List.append_nil] at free1
  rw [willing] at refused1
  have single1 : (kinit1 m first).freelist.Nodup := free1.nodup_iff.mpr (List.nodup_append.mp (managed_nodup first)).1
  have length1 : (kinit1 m first).freelist.length = 1024 - first := by
    rw [free1.length_eq,List.length_range']
  unfold boot
  obtain ⟨m1,_,⟨fail,_,poor⟩ | ⟨kpgdir,ok,conserve1,_,_,willing1⟩⟩ := setupkvm_spec (x := []) linked single1
  · rw [fail]
    change (511 : Nat) < first
    by_contra low
    exact poor ⟨refused1,by omega⟩
  rw [ok]
  dsimp only
  have kernel_low (q : Nat) (owned : q ∈ holdings m1 kpgdir) : q < 1024 := by
    have free := conserve1.mem_iff.mp (mem_pool.mpr (Or.inr (Or.inr owned)))
    rw [List.nil_append] at free
    have := List.mem_range'_1.mp (free1.mem_iff.mp free)
    omega
  obtain ⟨free2,refused2,table2⟩ := kinit2_spec m1
  rw [willing1 refused1] at refused2
  have kernel2 : holdings (kinit2 m1) kpgdir = holdings m1 kpgdir :=
    holdings_outside fun q owned => table2 q (kernel_low q owned)
  have length2 : 56320 ≤ (kinit2 m1).freelist.length := by
    rw [free2.length_eq,List.length_append,List.length_range']
    omega
  have whole2 : ((kinit2 m1).freelist ++ holdings (kinit2 m1) kpgdir).Perm (managed first) := by
    rw [kernel2]
    refine (free2.append_right _).trans ?_
    rw [List.append_assoc]
    exact ((conserve1.trans free1).append_left _).trans List.perm_append_comm
  generalize kinit2 m1 = m2 at refused2 length2 whole2 ⊢
  obtain ⟨kstack,rest,free3,taken⟩ := kalloc_willing refused2 (by omega)
  rw [taken]
  dsimp only
  have length3 : 56319 ≤ rest.length := by
    rw [free3,List.length_cons] at length2
    omega
  have whole3 : (rest ++ kstack :: holdings m2 kpgdir).Perm (managed first) := by
    rw [free3] at whole2
    exact List.perm_middle.trans whole2
  have single3 := List.nodup_append.mp (whole3.nodup_iff.mpr (managed_nodup first))
  obtain ⟨m3,away3,⟨_,_,poor⟩ | ⟨pgdir,ok,conserve3,empty3,_,willing3⟩⟩ := setupkvm_spec (x := [])
    (m := { m2 with freelist := rest,refused := [] }) linked single3.1
  · exact absurd ⟨rfl,by change 512 < rest.length; omega⟩ poor
  rw [ok]
  dsimp only
  have nodup3 : (pool [] m3 pgdir).Nodup := conserve3.nodup_iff.mpr single3.1
  have length4 : 1 < m3.freelist.length := by
    have count := conserve3.length_eq
    have few := empty3.few (holdings_nodup nodup3)
    simp only [pool,List.nil_append,List.length_append] at count
    omega
  obtain ⟨m4,ok,works,extent⟩ : ∃ m4, inituvm m3 pgdir init size = .ok m4 ∧ Works pgdir [] [] m3 m4 ∧ Extent m4 pgdir 1 :=
    inituvm_spec nodup3 empty3 (willing3 rfl) length4
  rw [ok]
  dsimp only
  rw [uinit_eq]
  have owned (q : Page) (inside : q ∈ holdings m2 kpgdir) : q ∉ rest := fun free =>
    single3.2.2 q free q (List.mem_cons_of_mem _ inside) rfl
  have kernel : holdings m4 kpgdir = holdings m2 kpgdir := holdings_outside fun q inside => by
    rw [works.table q fun h => owned q inside (conserve3.mem_iff.mp h)]
    exact (away3 q (owned q inside)).1
  have size : (uinitState m4 kstack pgdir disk stack).proc.sz = 4096 := rfl
  have length5 : 55000 ≤ m4.freelist.length := by
    have count := (works.conserve.trans conserve3).length_eq
    have few := extent.few (holdings_nodup (works.nodup nodup3))
    simp only [pool,List.nil_append,List.length_append] at count
    omega
  refine ⟨⟨⟨managed_nodup first,?_,?_,1,?_,extent⟩,uinitState_safe m4 kstack pgdir disk stack⟩,length5⟩
  rotate_left
  · rw [size]
    omega
  · rw [size]
  change (m4.freelist ++ kstack :: (holdings m4 kpgdir ++ holdings m4 pgdir)).Perm (managed first)
  rw [kernel]
  have pages : (m4.freelist ++ holdings m4 pgdir).Perm rest := works.conserve.trans conserve3
  refine List.Perm.trans ?_ ((pages.append_right (kstack :: holdings m2 kpgdir)).trans whole3)
  rw [List.append_assoc]
  have swap : (kstack :: holdings m2 kpgdir ++ holdings m4 pgdir).Perm (holdings m4 pgdir ++ kstack :: holdings m2 kpgdir) :=
    List.perm_append_comm
  exact swap.append_left _

theorem boot_spec (linked : Linked data) (fresh : m.freelist = []) (willing : m.refused = []) :
    Meets (fun _ => (511 : Nat) < first) (boot data first init size (cold disk stack) m)
      (fun r => Paged (managed first) r.1 r.2 ∧ Safe Counted r.2) :=
  (boot_leaves linked fresh willing).mono fun _ leaves => leaves.1

/-- Where the pages are, in every state of a run that begins with boot: each is free
once, or the kernel stack, or in one place of one address space. -/
theorem page_ownership (linked : Linked data) (fresh : m.freelist = []) (willing : m.refused = []) {kpgdir : Page}
    {k₀ k : State} (booted : boot data first init size (cold disk stack) m = .ok (kpgdir,k₀)) (run : Run data k₀ k) :
    (managed first).Nodup ∧ (k.vm.freelist ++ (k.proc.kstack ::
      (holdings k.vm kpgdir ++ holdings k.vm k.proc.pgdir))).Perm (managed first) := by
  obtain ⟨paged,safe⟩ := (boot_spec linked fresh willing).elim booted
  obtain ⟨paged,_⟩ := paged.run safe linked run
  exact ⟨managed_nodup first,paged.conserve⟩

/-- With 2 MB or more left below 4 MB, boot succeeds. -/
theorem boots (linked : Linked data) (fresh : m.freelist = []) (willing : m.refused = []) (low : (first : Nat) ≤ 511) :
    ∃ r, boot data first init size (cold disk stack) m = .ok r := by
  have started : Meets (fun _ => (511 : Nat) < first) (boot data first init size (cold disk stack) m) _ :=
    boot_spec linked fresh willing
  rcases started.cases with ⟨e,_,high⟩ | ⟨r,ok,_⟩
  · exact absurd low (Nat.not_le_of_lt high)
  · exact ⟨r,ok⟩

end boot

theorem linked_example : Linked 2148597760 := ⟨by decide,by decide,by decide⟩

theorem boots_example : ∃ kpgdir k, boot 2148597760 300 zeros 0 (cold (fun _ _ => zeros) zeros)
    ⟨fun _ _ => .zero,fun _ => zeros,[],[]⟩ = .ok (kpgdir,k) := by
  have started : ∃ r, boot 2148597760 300 zeros 0 (cold (fun _ _ => zeros) zeros)
      ⟨fun _ _ => .zero,fun _ => zeros,[],[]⟩ = .ok r := boots linked_example rfl rfl (by decide)
  obtain ⟨⟨kpgdir,k⟩,booted⟩ := started
  exact ⟨kpgdir,k,booted⟩

/-- A kernel of 176 KB, just booted. -/
theorem page_ownership_boot : ∃ kpgdir k, boot 2148597760 300 zeros 0 (cold (fun _ _ => zeros) zeros)
      ⟨fun _ _ => .zero,fun _ => zeros,[],[]⟩ = .ok (kpgdir,k) ∧
    (k.vm.freelist ++ (k.proc.kstack :: (holdings k.vm kpgdir ++ holdings k.vm k.proc.pgdir))).Perm (managed 300) := by
  obtain ⟨kpgdir,k,booted⟩ := boots_example
  exact ⟨kpgdir,k,booted,(page_ownership linked_example rfl rfl booted Relation.ReflTransGen.refl).2⟩

/-- In every state of a run that begins with boot, whatever a system call reads or writes
for its user lies below the size of the process, and is present. -/
theorem isolation {data size : Nat} {first kpgdir : Page} {init : Buffer} {m : Vm} {disk : Nat → Nat → Block}
    {stack : Buffer} {k₀ k : State} (linked : Linked data) (fresh : m.freelist = []) (willing : m.refused = [])
    (booted : boot data first init size (cold disk stack) m = .ok (kpgdir,k₀)) (run : Run data k₀ k) :
    k.proc.sz ≤ kernbase ∧ (∀ va < k.proc.sz, (translate k.vm k.proc.pgdir va).isSome) ∧
    ∀ call, dispatch data k call ≠ .error .pageFault ∧ ∀ r k', dispatch data k call = .ok (r,k') →
      ∀ range ∈ k'.touched, range ∈ k.touched ∨ range.1 + range.2 ≤ k.proc.sz := by
  obtain ⟨paged,safe⟩ := (boot_spec linked fresh willing).elim booted
  obtain ⟨paged,safe⟩ := paged.run safe linked run
  refine ⟨paged.limit,paged.resident.present,fun call => ⟨fun fault => ?_,fun r k' ok => ?_⟩⟩
  · have quiet := paged.dispatch safe linked call
    rw [fault] at quiet
    exact quiet rfl
  · exact ((paged.dispatch safe linked call).elim ok).inside paged.limit

theorem isolation_boot : ∃ kpgdir k, boot 2148597760 300 zeros 0 (cold (fun _ _ => zeros) zeros)
      ⟨fun _ _ => .zero,fun _ => zeros,[],[]⟩ = .ok (kpgdir,k) ∧
    ∀ va < k.proc.sz, (translate k.vm k.proc.pgdir va).isSome := by
  obtain ⟨kpgdir,k,booted⟩ := boots_example
  exact ⟨kpgdir,k,booted,(isolation linked_example rfl rfl booted Relation.ReflTransGen.refl).2.1⟩

end Lxos.Kernel
