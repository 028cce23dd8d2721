import Lxos.Kernel.Paging

/-! `exec` and the pages. Whatever file it is given and wherever it fails, the pages
stay shared out, and the memory of the calling process is read below its size only. -/
namespace Lxos.Kernel
open Lxos.Bytes Lxos.Fs Lxos.Outcome Lxos.Inventory

section exec
variable {all : List Page} {kpgdir d : Page} {k₀ k : State} {data s : Nat} {path : Nat × Nat} {argv : List (Nat × Nat)}

theorem allocuvm_high (m : Vm) (d : Page) (oldsz : Nat) {newsz : Nat} (high : 2147483648 ≤ newsz) :
    allocuvm m d oldsz newsz = .ok (0,m) := by
  unfold allocuvm
  exact if_pos high

theorem Loading.copyout (loading : Loading k₀ d k) (va : Nat) (p : Buffer) (len : Nat) :
    Meets (· = .nullEntry) (copyout k.vm d va p len)
      (fun r => Loading k₀ d { k with vm := r.2 } ∧ ∀ n, Extent k.vm d n → Extent r.2 d n) :=
  (copyout_spec loading.building.sealing va p len).mono fun _ fills =>
    ⟨loading.vm (loading.building.fills fills),fun _ => fills.extent⟩

theorem Loading.pushArgs (paged : Paged all kpgdir k₀) (loading : Loading k₀ d k)
    (strings : ∀ s ∈ argv, StringAt k₀ s.1 s.2) (sp : Nat) (pushed : List Nat) :
    Meets (· ≠ .pageFault) (pushArgs d argv k sp pushed)
      (fun r => Loading k₀ d r.2 ∧ ∀ n, Extent k.vm d n → Extent r.2.vm d n) := by
  induction argv generalizing k sp pushed with
  | nil => exact ⟨loading,fun _ => id⟩
  | cons arg argv ih =>
    obtain ⟨addr,len⟩ := arg
    unfold Kernel.pushArgs
    split
    · exact ⟨loading,fun _ => id⟩
    have string := strings (addr,len) List.mem_cons_self
    obtain ⟨now,ok,same,reading⟩ := loading.touch paged string.inside
    rw [ok]
    dsimp only
    rcases (reading.copyout (u32 (sp + 4294967296 - u32 (len + 1)) / 4 * 4) (userMem now addr) (len + 1)).cases with
      ⟨e,fail,null⟩ | ⟨⟨_ | _,m⟩,ok,filled,extent⟩
    · rw [fail,null]
      exact Meets.error (by decide)
    · rw [ok]
      rw [same] at extent
      exact ⟨filled,extent⟩
    · rw [ok]
      rw [same] at extent
      refine (ih filled (fun s member => strings s (List.mem_cons_of_mem _ member)) _ _).mono fun r later => ?_
      exact ⟨later.1,fun n reach => later.2 n (extent n reach)⟩

theorem Loading.execStack (paged : Paged all kpgdir k₀) (loading : Loading k₀ d k) (limit : s ≤ 2147483648)
    (extent : Extent k.vm d (pages s)) (string : path.1 + path.2 < k₀.proc.sz) (entry sp : Nat) (pushed : List Nat) :
    Meets (· ≠ .pageFault) (execStack k d s entry path sp pushed) (Ended all kpgdir k₀) := by
  unfold Kernel.execStack
  dsimp only
  rcases (loading.copyout (u32 (sp + 4294967296 - 4 * (ustack sp pushed).length))
    (Bytes.words fun i => BitVec.ofNat 32 ((ustack sp pushed).getD i 0)) (4 * (ustack sp pushed).length)).cases with
    ⟨e,fail,null⟩ | ⟨⟨_ | _,m⟩,ok,filled,kept⟩
  · rw [fail,null]
    exact Meets.error (by decide)
  · rw [ok]
    obtain ⟨r,freed,replaced⟩ := filled.free paged none
    dsimp only at freed ⊢
    rw [freed]
    exact replaced
  · rw [ok]
    obtain ⟨now,ok,same,reading⟩ := filled.touch paged string
    dsimp only
    rw [ok]
    have reach : Extent now.vm d (pages s) := by
      rw [same]
      exact kept _ extent
    obtain ⟨m,freed,committed⟩ := reading.commit paged limit reach
    dsimp only
    rw [freed]
    exact ⟨⟨committed _ rfl rfl rfl rfl,reading.inside⟩,fun absurd => nomatch absurd⟩

theorem Loading.execCommit (paged : Paged all kpgdir k₀) (loading : Loading k₀ d k) (limit : s < 2147483648)
    (extent : Extent k.vm d (pages s)) (string : path.1 + path.2 < k₀.proc.sz)
    (strings : ∀ s ∈ argv, StringAt k₀ s.1 s.2) (entry : Nat) :
    Meets (· ≠ .pageFault) (execCommit k d s entry path argv) (Ended all kpgdir k₀) := by
  have stop (m : Vm) (building : Building k₀.vm d m) :
      Meets (· ≠ .pageFault) (execFree { k with vm := m } d none) (Ended all kpgdir k₀) := by
    obtain ⟨r,freed,replaced⟩ := (loading.vm building).free paged none
    rw [freed]
    exact replaced
  have nodup := loading.building.nodup paged.freelist_nodup
  have round : pgroundup s = pages s * 4096 := pgroundup_eq (by omega)
  have bound : pages s * 4096 ≤ 2147483648 := by
    unfold pages
    omega
  have next : u32 (pages s * 4096 + 2*pgsize) = pages s * 4096 + 8192 := u32_of_lt (by
    change pages s * 4096 + 8192 < 4294967296
    omega)
  unfold Kernel.execCommit
  dsimp only
  rw [round,next]
  rcases Nat.lt_or_ge (pages s * 4096) 2147483648 with low | high
  · have same : pages (pages s * 4096) = pages s := by
      unfold pages
      omega
    obtain ⟨r,m,ok,works,sealing,t,low,reach,_,result⟩ :=
      allocuvm_spec (x := []) nodup low (by rw [same]; exact extent) (pages s * 4096 + 8192)
    have grown := loading.building.step works sealing
    rw [ok]
    dsimp only
    split
    · exact stop m grown
    rename_i more
    obtain ⟨rfl,_⟩ := result.resolve_left more
    rcases (clearpteu_spec (grown.nodup paged.freelist_nodup) (u32 (r + 4294967296 - 2*pgsize))).cases with
      ⟨e,fail,null⟩ | ⟨m1,ok,works1,sealing1,kept1⟩
    · rw [fail,null]
      exact Meets.error (by decide)
    rw [ok]
    dsimp only
    rcases ((loading.vm (grown.step works1 sealing1)).pushArgs paged strings r []).cases with
      ⟨e,fail,quiet⟩ | ⟨⟨_ | ⟨sp,pushed⟩,k1⟩,ok,filled,kept⟩
    · rw [fail]
      exact quiet
    · rw [ok]
      obtain ⟨r,freed,replaced⟩ := filled.free paged none
      dsimp only at freed ⊢
      rw [freed]
      exact replaced
    · rw [ok]
      exact filled.execStack paged (Nat.le_of_lt low) (kept _ (kept1 _ reach)) string entry sp pushed
  · rw [allocuvm_high _ _ _ (Nat.le_trans high (Nat.le_add_right _ _))]
    dsimp only
    rw [if_pos rfl]
    exact stop k.vm loading.building

theorem Loading.execLoad (paged : Paged all kpgdir k₀) (loading : Loading k₀ d k) (empty : Extent k.vm d 0)
    (string : path.1 + path.2 < k₀.proc.sz) (strings : ∀ s ∈ argv, StringAt k₀ s.1 s.2) (ip : Slot) (elf : Elfhdr) :
    Meets (· ≠ .pageFault) (execLoad k d ip elf path argv) (Ended all kpgdir k₀) := by
  unfold Kernel.execLoad
  have nothing : Extent k.vm d (pages 0) := empty
  obtain ⟨r,fs,m,ok,building,reach⟩ := loadProgram_spec paged.freelist_nodup ip elf.phnum k.fs elf.phoff
    loading.building nothing (by decide)
  have loaded (fs : FsState) : Loading k₀ d { k with fs := fs,vm := m } := ⟨building,loading.proc,loading.file,loading.inside⟩
  rw [ok]
  cases r with
  | none =>
    obtain ⟨r,freed,replaced⟩ := (loaded fs).free paged (some ip)
    dsimp only
    rw [freed]
    exact replaced
  | some sz =>
    obtain ⟨limit,extent⟩ := reach sz rfl
    exact (loaded (iunlockput fs ip)).execCommit paged limit extent string strings elf.entry

theorem Paged.replaced (paged : Paged all kpgdir k₀) (remains : Remains k₀ k) : Replaced all kpgdir k₀ k :=
  ⟨paged.remains remains,remains.inside⟩

/-- A failure before there is a new address space. -/
theorem Accessed.ended (paged : Paged all kpgdir k₀) (accessed : Accessed k₀ k) (r : Int) (fs : FsState) :
    Ended all kpgdir k₀ (r,{ k with fs := fs }) := by
  refine ⟨paged.replaced (accessed.remains.trans (Remains.keep k fs _ _)),fun _ => ⟨accessed.proc,accessed.file,?_,?_,?_⟩⟩
  · exact List.Perm.of_eq (congrArg Vm.freelist accessed.vm)
  · exact fun q _ => congrArg (Vm.table · q) accessed.vm
  · exact fun q _ => congrArg (Vm.frame · q) accessed.vm

theorem Paged.exec (paged : Paged all kpgdir k₀) (safe : Safe Counted k₀) (linked : Linked data)
    (string : StringAt k₀ path.1 path.2) (strings : ∀ s ∈ argv, StringAt k₀ s.1 s.2) :
    Meets (· ≠ .pageFault) (exec data k₀ path argv) (Ended all kpgdir k₀) := by
  have inside := string.inside
  unfold Kernel.exec
  rcases (touch_accessed k₀ path.1 (path.2 + 1) (fun _ => by omega)).cases with ⟨e,fail,permitted⟩ | ⟨k,ok,accessed⟩
  · rw [fail]
    exact permitted.2 paged.resident
  rw [ok]
  have safe1 := safe.accessed accessed
  dsimp only
  rcases (counted_guard.namei safe1.inv safe1.room List.mem_cons_self (userString k path.1 path.2)).cases with
    ⟨e,fail,tolerated⟩ | ⟨⟨_ | ip,fs⟩,ok,_⟩
  · rw [fail]
    exact (permitted_of_tolerated tolerated).2 paged.resident
  · rw [ok]
    exact accessed.ended paged _ fs
  rw [ok]
  dsimp only
  generalize readi (ilock fs ip) ip fs.stack 0 elfhdrSize = result
  obtain ⟨r,b,fs⟩ := result
  dsimp only
  split
  · exact accessed.ended paged _ _
  split
  · exact accessed.ended paged _ _
  have vm : k.vm = k₀.vm := accessed.vm
  obtain ⟨m,away,⟨ok,free,_⟩ | ⟨d,ok,conserve,empty,sealing,_⟩⟩ := setupkvm_spec (x := []) (m := k.vm) linked (by
    rw [vm]
    exact paged.freelist_nodup)
  · rw [ok]
    rw [vm] at away free
    refine ⟨⟨paged.restored free (fun q out => (away q out).1) accessed.proc,accessed.inside⟩,fun _ => ?_⟩
    exact ⟨accessed.proc,accessed.file,free,fun q out => (away q out).1,fun q out => (away q out).2⟩
  · rw [ok]
    rw [vm] at away conserve
    have building : Building k₀.vm d m :=
      ⟨conserve,fun q out => (away q out).1,fun q out => (away q out).2,sealing⟩
    have loading : Loading k₀ d { k with fs := fs,vm := m } := ⟨building,accessed.proc,accessed.file,accessed.inside⟩
    exact loading.execLoad paged empty inside strings ip (Elfhdr.decode b)

theorem Accessed.replaced (accessed : Accessed k₀ k) {k' : State} (replaced : Replaced all kpgdir k k') :
    Replaced all kpgdir k₀ k' := by
  refine ⟨replaced.paged,fun limit r member => ?_⟩
  have inside := replaced.inside
  rw [accessed.proc] at inside
  rcases inside limit r member with before | below
  · exact accessed.inside limit r before
  · exact Or.inr below

theorem Paged.accessed (paged : Paged all kpgdir k₀) (accessed : Accessed k₀ k) : Paged all kpgdir k :=
  paged.remains accessed.remains

/-- The first argument is printed even when there is none: then the zero word that
ended the list stops it. -/
theorem Paged.printFirst (paged : Paged all kpgdir k) (strings : ∀ s ∈ argv, StringAt k s.1 s.2)
    (none_given : argv = [] → ∃ a, le32 (userMem k a) 0 = 0 ∧ (k.proc.sz ≤ 2147483648 → a + 4 ≤ k.proc.sz)) :
    Meets (Permitted k) (printString k ((argv.head?.map Prod.fst).getD 0) 4294967296 0) (Accessed k) := by
  cases argv with
  | nil =>
    obtain ⟨a,zero,inside⟩ := none_given rfl
    have inside := inside paged.limit
    have low : userByte k (0 + a) = 0 := by
      rw [Nat.zero_add]
      exact le32_low zero
    exact printString_accessed k 0 4294967296 (by omega) low (Nat.zero_le a)
  | cons arg argv =>
    have string := strings arg List.mem_cons_self
    exact printString_accessed k arg.1 4294967296 string.inside string.zero (Nat.zero_le _)

theorem Paged.sysExec (paged : Paged all kpgdir k) (safe : Safe Counted k) (linked : Linked data) :
    Meets (· ≠ .pageFault) (sysExec data k) (fun r => Replaced all kpgdir k r.2) := by
  unfold Kernel.sysExec
  rcases (argstr_accessed k 0).cases with ⟨e,fail,permitted⟩ | ⟨⟨_ | path,k1⟩,ok,first,string⟩
  · rw [fail]
    exact permitted.2 paged.resident
  · rw [ok]
    exact paged.replaced first.remains
  rw [ok]
  have paged1 := paged.accessed first
  dsimp only
  rcases (argint_accessed k1 1).cases with ⟨e,fail,permitted⟩ | ⟨⟨_ | uargv,k2⟩,ok,second,_⟩
  · rw [fail]
    exact permitted.2 paged1.resident
  · rw [ok]
    exact paged.replaced (first.trans second).remains
  rw [ok]
  have two := first.trans second
  have paged2 := paged.accessed two
  dsimp only
  rcases (argvLoop_accessed k2 uargv maxarg 0).cases with ⟨e,fail,permitted⟩ | ⟨⟨_ | argv,k3⟩,ok,third,listed⟩
  · rw [fail]
    exact permitted.2 paged2.resident
  · rw [ok]
    exact paged.replaced (two.trans third).remains
  rw [ok]
  obtain ⟨strings,none_given⟩ := listed argv rfl
  have three := two.trans third
  have paged3 := paged.accessed three
  have named := three.carry (string path rfl)
  dsimp only
  rcases (printString_accessed k3 path.1 4294967296 named.inside named.zero (Nat.zero_le _)).cases with
    ⟨e,fail,permitted⟩ | ⟨k4,ok,fourth⟩
  · rw [fail]
    exact permitted.2 paged3.resident
  rw [ok]
  have printed := third.trans fourth
  have four := three.trans fourth
  have paged4 := paged.accessed four
  dsimp only
  have first_arg := paged4.printFirst (fun s member => printed.carry (strings s member)) (fun empty => by
    obtain ⟨a,zero,inside⟩ := none_given empty
    rw [← printed.userMem] at zero
    rw [← printed.proc] at inside
    exact ⟨a,zero,inside⟩)
  rcases first_arg.cases with ⟨e,fail,permitted⟩ | ⟨k5,ok,fifth⟩
  · rw [fail]
    exact permitted.2 paged4.resident
  rw [ok]
  have whole := four.trans fifth
  have tail := printed.trans fifth
  refine ((paged.accessed whole).exec (safe.accessed whole) linked (whole.carry (string path rfl))
    fun s member => tail.carry (strings s member)).mono fun r ended => whole.replaced ended.replaced

/-- No system call causes a page fault, and each leaves the pages shared out. -/
theorem Paged.dispatch (paged : Paged all kpgdir k) (safe : Safe Counted k) (linked : Linked data) (call : Call) :
    Meets (· ≠ .pageFault) (dispatch data k call) (fun r => Replaced all kpgdir k r.2) := by
  have plain {r : Except Fault (Int × State)}
      (meets : Meets (Permitted k) r (fun r => Safe Counted r.2 ∧ Remains k r.2)) :
      Meets (· ≠ .pageFault) r (fun r => Replaced all kpgdir k r.2) := by
    cases r with
    | ok r => exact paged.replaced meets.2
    | error e => exact meets.2 paged.resident
  cases call with
  | open_ => exact plain (Safe.sysOpen counted_guard safe)
  | mknod => exact plain (Safe.sysMknod counted_guard safe)
  | read => exact plain (Safe.sysRead counted_guard safe)
  | write => exact plain (Safe.sysWrite counted_guard safe)
  | close => exact plain (Safe.sysClose counted_guard safe)
  | fstat => exact plain (Safe.sysFstat counted_guard safe)
  | exec => exact paged.sysExec safe linked

/-- The program itself moves no page. -/
theorem Paged.step (paged : Paged all kpgdir k₀) (safe : Safe Counted k₀) (linked : Linked data)
    (step : Step data k₀ k) : Paged all kpgdir k := by
  cases step with
  | user frame refused esp stack => exact paged.remains ⟨rfl,rfl,rfl,rfl,rfl,fun _ _ => Or.inl⟩
  | call _ call r ok => exact ((paged.dispatch safe linked call).elim ok).paged

theorem Paged.run (paged : Paged all kpgdir k₀) (safe : Safe Counted k₀) (linked : Linked data)
    (run : Run data k₀ k) : Paged all kpgdir k ∧ Safe Counted k := by
  induction run with
  | refl => exact ⟨paged,safe⟩
  | tail _ step ih => exact ⟨ih.1.step ih.2 linked step,ih.2.step counted_guard step⟩

end exec

end Lxos.Kernel
