import Lxos.Kernel.Loader
import Lxos.Kernel.References

/-! Who owns the pages. Between two steps of a run each page is free, or is the
kernel stack, or belongs to the address space of the kernel or of the process. -/
namespace Lxos.Kernel
open Lxos.Bytes Lxos.Fs Lxos.Outcome Lxos.Inventory

/-- The pages handed to the allocator, shared out; `kpgdir` is the kernel's own directory. -/
structure Paged (all : List Page) (kpgdir : Page) (k : State) : Prop where
  single : all.Nodup
  conserve : (k.vm.freelist ++ (k.proc.kstack :: (holdings k.vm kpgdir ++ holdings k.vm k.proc.pgdir))).Perm all
  limit : k.proc.sz ≤ 2147483648
  reach : ∃ n, k.proc.sz ≤ n * 4096 ∧ Extent k.vm k.proc.pgdir n

section paged
variable {all : List Page} {kpgdir : Page} {k k' : State}

theorem Paged.resident (paged : Paged all kpgdir k) : Resident k := by
  obtain ⟨n,size,extent⟩ := paged.reach
  have limit := paged.limit
  exact ⟨limit,fun va below => extent.translate (by omega) (by omega)⟩

theorem Paged.remains (paged : Paged all kpgdir k) (remains : Remains k k') : Paged all kpgdir k' := by
  obtain ⟨single,conserve,limit,n,size,extent⟩ := paged
  refine ⟨single,?_,?_,n,?_,fun i hi j hj => ?_⟩
  · rw [remains.freelist,remains.kstack,remains.pgdir,holdings_table remains.table,holdings_table remains.table]
    exact conserve
  · rw [remains.sz]
    exact limit
  · rw [remains.sz]
    exact size
  · rw [remains.pgdir,Vm.at_table remains.table]
    exact extent i hi j hj

end paged

/-- During `exec`: the address space of the process is untouched while the new one is
built, and user memory is read below its size only. -/
structure Loading (k₀ : State) (d : Page) (k : State) : Prop where
  building : Building k₀.vm d k.vm
  proc : k.proc = k₀.proc
  file : k.file = k₀.file
  inside : k₀.proc.sz ≤ 2147483648 → ∀ r ∈ k.touched, r ∈ k₀.touched ∨ r.1 + r.2 ≤ k₀.proc.sz

section loading
variable {all : List Page} {kpgdir d : Page} {k₀ k : State} {m : Vm} {addr len : Nat}

/-- A page that is owned already is not on the free list. -/
theorem Paged.taken (paged : Paged all kpgdir k₀) {q : Page} (owned : q ∈ holdings k₀.vm k₀.proc.pgdir) :
    q ∉ k₀.vm.freelist := by
  intro free
  have single := paged.conserve.nodup_iff.mpr paged.single
  refine (List.nodup_append.mp single).2.2 q free q ?_ rfl
  exact List.mem_cons_of_mem _ (List.mem_append_right _ owned)

theorem Paged.freelist_nodup (paged : Paged all kpgdir k₀) : k₀.vm.freelist.Nodup :=
  (List.nodup_append.mp (paged.conserve.nodup_iff.mpr paged.single)).1

theorem Loading.table (paged : Paged all kpgdir k₀) (loading : Loading k₀ d k) :
    ∀ q ∈ holdings k₀.vm k₀.proc.pgdir, k.vm.table q = k₀.vm.table q :=
  fun q owned => loading.building.table q (paged.taken owned)

theorem Loading.extent (paged : Paged all kpgdir k₀) (loading : Loading k₀ d k) {n : Nat}
    (extent : Extent k₀.vm k₀.proc.pgdir n) : Extent k.vm k.proc.pgdir n := by
  intro i hi j hj
  rw [loading.proc,at_outside (loading.table paged) (mem_frame.mpr ⟨hi,hj⟩)]
  exact extent i hi j hj

theorem Loading.resident (paged : Paged all kpgdir k₀) (loading : Loading k₀ d k) : Resident k := by
  obtain ⟨n,size,extent⟩ := paged.reach
  have limit := paged.limit
  have proc := loading.proc
  rw [← proc] at limit size
  exact ⟨limit,fun va below => (loading.extent paged extent).translate (by omega) (by omega)⟩

theorem Loading.vm (loading : Loading k₀ d k) (building : Building k₀.vm d m) : Loading k₀ d { k with vm := m } :=
  ⟨building,loading.proc,loading.file,loading.inside⟩

theorem Loading.touch (paged : Paged all kpgdir k₀) (loading : Loading k₀ d k) (below : addr + len < k₀.proc.sz) :
    ∃ now, touch k addr (len + 1) = .ok now ∧ now.vm = k.vm ∧ Loading k₀ d now := by
  have bound : k.proc.sz ≤ 2147483648 → addr + (len + 1) ≤ k.proc.sz := by
    rw [loading.proc]
    omega
  rcases (touch_accessed k addr (len + 1) bound).cases with ⟨e,fail,permitted⟩ | ⟨now,ok,accessed⟩
  · have quiet := permitted.2 (loading.resident paged)
    unfold Kernel.touch at fail
    split at fail
    · cases fail
    · exact absurd (Except.error.inj fail).symm quiet
  · refine ⟨now,ok,accessed.vm,?_,?_,accessed.file.trans loading.file,fun limit r member => ?_⟩
    · rw [accessed.vm]
      exact loading.building
    · rw [accessed.proc,loading.proc]
    · rcases accessed.inside (by rw [loading.proc]; exact limit) r member with before | here
      · exact loading.inside limit r before
      · rw [loading.proc] at here
        exact Or.inr here

/-- What `exec` leaves behind, whether it fails or not. -/
structure Replaced (all : List Page) (kpgdir : Page) (k₀ k : State) : Prop where
  paged : Paged all kpgdir k
  inside : k₀.proc.sz ≤ 2147483648 → ∀ r ∈ k.touched, r ∈ k₀.touched ∨ r.1 + r.2 ≤ k₀.proc.sz

/-- What a failed `exec` leaves: the process, its files, and every page that was in use. -/
structure Kept (k₀ k : State) : Prop where
  proc : k.proc = k₀.proc
  file : k.file = k₀.file
  free : k.vm.freelist.Perm k₀.vm.freelist
  table : ∀ q ∉ k₀.vm.freelist, k.vm.table q = k₀.vm.table q
  frame : ∀ q ∉ k₀.vm.freelist, k.vm.frame q = k₀.vm.frame q

/-- What `exec` leaves behind, with its result. -/
structure Ended (all : List Page) (kpgdir : Page) (k₀ : State) (r : Int × State) : Prop where
  replaced : Replaced all kpgdir k₀ r.2
  kept : r.1 = -1 → Kept k₀ r.2

/-- The free pages are the same again, in whatever order. -/
theorem Paged.restored (paged : Paged all kpgdir k₀) (free : k.vm.freelist.Perm k₀.vm.freelist)
    (table : ∀ q ∉ k₀.vm.freelist, k.vm.table q = k₀.vm.table q) (proc : k.proc = k₀.proc) : Paged all kpgdir k := by
  have single := paged.conserve.nodup_iff.mpr paged.single
  have kernel : holdings k.vm kpgdir = holdings k₀.vm kpgdir := holdings_outside fun q owned => table q fun h => by
    refine (List.nodup_append.mp single).2.2 q h q ?_ rfl
    exact List.mem_cons_of_mem _ (List.mem_append_left _ owned)
  have user (q : Page) (owned : q ∈ holdings k₀.vm k₀.proc.pgdir) := table q (paged.taken owned)
  obtain ⟨n,size,extent⟩ := paged.reach
  refine ⟨paged.single,?_,?_,n,?_,fun i hi j hj => ?_⟩
  · rw [proc,kernel,holdings_outside user]
    exact (free.append_right _).trans paged.conserve
  · rw [proc]
    exact paged.limit
  · rw [proc]
    exact size
  · rw [proc,at_outside user (mem_frame.mpr ⟨hi,hj⟩)]
    exact extent i hi j hj

theorem Loading.free (paged : Paged all kpgdir k₀) (loading : Loading k₀ d k) (ip : Option Slot) :
    ∃ r, execFree k d ip = .ok r ∧ Ended all kpgdir k₀ r := by
  obtain ⟨m,ok,released⟩ := freevm_spec (loading.building.nodup paged.freelist_nodup)
  have free : m.freelist.Perm k₀.vm.freelist := released.conserve.trans loading.building.conserve
  have table (q : Page) (out : q ∉ k₀.vm.freelist) : m.table q = k₀.vm.table q :=
    (released.table q fun h => out (loading.building.conserve.mem_iff.mp h)).trans (loading.building.table q out)
  have frame (q : Page) (out : q ∉ k₀.vm.freelist) : m.frame q = k₀.vm.frame q :=
    (released.frame q fun h => out (loading.building.conserve.mem_iff.mp h)).trans (loading.building.frame q out)
  have kept (k' : State) (vm : k'.vm = m) (proc : k'.proc = k.proc) (file : k'.file = k.file) : Kept k₀ k' := by
    refine ⟨proc.trans loading.proc,file.trans loading.file,?_,?_,?_⟩
    all_goals rw [vm]
    · exact free
    · exact table
    · exact frame
  unfold execFree
  rw [ok]
  cases ip with
  | none => exact ⟨_,rfl,⟨paged.restored free table loading.proc,loading.inside⟩,fun _ => kept _ rfl rfl rfl⟩
  | some ip => exact ⟨_,rfl,⟨paged.restored free table loading.proc,loading.inside⟩,fun _ => kept _ rfl rfl rfl⟩

/-- The kernel's address space is not touched. -/
theorem Loading.kernel (paged : Paged all kpgdir k₀) (loading : Loading k₀ d k) : holdings k.vm kpgdir = holdings k₀.vm kpgdir := by
  have single := paged.conserve.nodup_iff.mpr paged.single
  refine holdings_outside fun q owned => loading.building.table q fun h => ?_
  refine (List.nodup_append.mp single).2.2 q h q ?_ rfl
  exact List.mem_cons_of_mem _ (List.mem_append_left _ owned)

/-- All pages, with those of the new address space. -/
theorem Loading.whole (paged : Paged all kpgdir k₀) (loading : Loading k₀ d k) : (k.vm.freelist ++ holdings k.vm d ++
    (k₀.proc.kstack :: (holdings k.vm kpgdir ++ holdings k.vm k₀.proc.pgdir))).Perm all := by
  have old : holdings k.vm k₀.proc.pgdir = holdings k₀.vm k₀.proc.pgdir := holdings_outside (loading.table paged)
  rw [loading.kernel paged,old]
  exact (loading.building.conserve.append_right _).trans paged.conserve

/-- The old address space is freed; the new one and the kernel's are as they were. -/
theorem Loading.spared (paged : Paged all kpgdir k₀) (loading : Loading k₀ d k) : ∃ m, freevm k.vm k.proc.pgdir = .ok m ∧
    Released k₀.proc.pgdir [] k.vm m ∧ ∀ q, q ∈ holdings k.vm d ∨ q ∈ holdings k.vm kpgdir →
      m.table q = k.vm.table q ∧ m.frame q = k.vm.frame q := by
  have count (q : Page) := ((loading.whole paged).count_eq q).le.trans ((List.nodup_iff_count_le_one.mp paged.single) q)
  simp only [List.count_append,List.count_cons] at count
  have pooled : (pool [] k.vm k₀.proc.pgdir).Nodup := by
    refine List.nodup_iff_count_le_one.mpr fun q => ?_
    have := count q
    simp only [pool,List.nil_append,List.count_append]
    omega
  obtain ⟨m,ok,released⟩ := freevm_spec pooled
  rw [loading.proc]
  have outside (q : Page) (owned : q ∈ holdings k.vm d ∨ q ∈ holdings k.vm kpgdir) : q ∉ pool [] k.vm k₀.proc.pgdir := by
    intro inside
    have := count q
    have free := List.count_pos_iff.mpr inside
    simp only [pool,List.nil_append,List.count_append] at free
    rcases owned with owned | owned
    · have := List.count_pos_iff.mpr owned
      omega
    · have := List.count_pos_iff.mpr owned
      omega
  exact ⟨m,ok,released,fun q owned => ⟨released.table q (outside q owned),released.frame q (outside q owned)⟩⟩

/-- The new address space takes the place of the old one. -/
theorem Loading.commit (paged : Paged all kpgdir k₀) (loading : Loading k₀ d k) {s : Nat} (limit : s ≤ 2147483648)
    (extent : Extent k.vm d (pages s)) : ∃ m, freevm k.vm k.proc.pgdir = .ok m ∧ ∀ k' : State, k'.vm = m →
      k'.proc.kstack = k.proc.kstack → k'.proc.pgdir = d → k'.proc.sz = s → Paged all kpgdir k' := by
  obtain ⟨m,ok,released,apart⟩ := loading.spared paged
  refine ⟨m,ok,fun k' vm kstack pgdir sz => ?_⟩
  have new : holdings m d = holdings k.vm d := holdings_outside fun q owned => (apart q (Or.inl owned)).1
  have kernel : holdings m kpgdir = holdings k.vm kpgdir := holdings_outside fun q owned => (apart q (Or.inr owned)).1
  refine ⟨paged.single,?_,by rw [sz]; exact limit,pages s,?_,fun i hi j hj => ?_⟩
  · rw [vm,kstack,pgdir,new,kernel,loading.proc]
    refine (List.perm_iff_count.mpr fun q => ?_).trans (loading.whole paged)
    have freed := released.conserve.count_eq q
    simp only [pool,List.nil_append,List.count_append,List.count_cons] at freed ⊢
    omega
  · rw [sz]
    unfold pages
    omega
  · rw [vm,pgdir,at_outside (fun q owned => (apart q (Or.inl owned)).1) (mem_frame.mpr ⟨hi,hj⟩)]
    exact extent i hi j hj

end loading

end Lxos.Kernel
