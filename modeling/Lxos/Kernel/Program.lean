import Lxos.Kernel.Syscalls

/-! `exec` and the references to inodes. Nothing is assumed of the address spaces
here: whatever happens to them, the inode of the program is given back. -/
namespace Lxos.Kernel
open Lxos.Bytes Lxos.Fs Lxos.Outcome

/-- Failures other than the null pointer of `iget`. -/
def Soft (e : Fault) : Prop := e ≠ .noSlot

instance : DecidablePred Soft := fun e => inferInstanceAs (Decidable (e ≠ .noSlot))

section memory
variable {pgdir : Page}

theorem mappages_soft (m : Vm) (pgdir : Page) (va size : Nat) (pa : Page) (writable user : Bool) :
    Meets Soft (mappages m pgdir va size pa writable user) (fun _ => True) := by
  have loop (last fuel : Nat) (m : Vm) (a : Nat) (pa : Page) :
      Meets Soft (mappagesLoop pgdir last writable user fuel m a pa) (fun _ => True) := by
    induction fuel generalizing m a pa with
    | zero => exact Meets.error (by decide)
    | succ fuel ih =>
      unfold mappagesLoop
      split
      · trivial
      · dsimp only
        split
        · trivial
        · exact ih _ _ _
  exact loop _ _ _ _ _

theorem deallocuvm_soft (m : Vm) (pgdir : Page) (oldsz newsz : Nat) :
    Meets Soft (deallocuvm m pgdir oldsz newsz) (fun _ => True) := by
  have loop (fuel : Nat) (m : Vm) (a : Nat) :
      Meets Soft (deallocuvmLoop pgdir oldsz fuel m a) (fun _ => True) := by
    induction fuel generalizing m a with
    | zero => exact Meets.error (by decide)
    | succ fuel ih =>
      unfold deallocuvmLoop
      split
      · split
        · exact ih _ _
        · exact ih _ _
      · trivial
  unfold deallocuvm
  split
  · trivial
  · rcases (loop 1048577 m (pgroundup newsz)).cases with ⟨e,fail,soft⟩ | ⟨m1,ok,_⟩
    · rw [fail]
      exact soft
    · rw [ok]
      trivial

theorem freevm_soft (m : Vm) (pgdir : Page) : Meets Soft (freevm m pgdir) (fun _ => True) := by
  unfold freevm
  rcases (deallocuvm_soft m pgdir kernbase 0).cases with ⟨e,fail,soft⟩ | ⟨⟨sz,m1⟩,ok,_⟩
  · rw [fail]
    exact soft
  · rw [ok]
    trivial

theorem setupkvm_soft (data : Nat) (m : Vm) : Meets Soft (setupkvm data m) (fun _ => True) := by
  have loop (pgdir : Page) (ks : List Kmap) (m : Vm) : Meets Soft (setupkvmLoop pgdir ks m) (fun _ => True) := by
    induction ks generalizing m with
    | nil => trivial
    | cons entry ks ih =>
      unfold setupkvmLoop
      rcases (mappages_soft m pgdir entry.virt entry.size (entry.physStart / pgsize) entry.writable false).cases with
        ⟨e,fail,soft⟩ | ⟨⟨_ | _,m1⟩,ok,_⟩
      · rw [fail]
        exact soft
      · rw [ok]
        trivial
      · rw [ok]
        exact ih m1
  unfold setupkvm
  split
  · trivial
  · rename_i pgdir m1 _
    rcases (loop pgdir (kmap data) (m1.clear pgdir)).cases with ⟨e,fail,soft⟩ | ⟨⟨_ | _,m2⟩,ok,_⟩
    · rw [fail]
      exact soft
    · rw [ok]
      rcases (freevm_soft m2 pgdir).cases with ⟨e,fail,soft⟩ | ⟨m3,ok,_⟩
      · dsimp only
        rw [fail]
        exact soft
      · dsimp only
        rw [ok]
        trivial
    · rw [ok]
      trivial

theorem allocuvm_soft (m : Vm) (pgdir : Page) (oldsz newsz : Nat) :
    Meets Soft (allocuvm m pgdir oldsz newsz) (fun _ => True) := by
  have loop (fuel : Nat) (m : Vm) (a : Nat) :
      Meets Soft (allocuvmLoop pgdir oldsz newsz fuel m a) (fun _ => True) := by
    induction fuel generalizing m a with
    | zero => exact Meets.error (by decide)
    | succ fuel ih =>
      unfold allocuvmLoop
      split
      · split
        · rename_i m1 _
          rcases (deallocuvm_soft m1 pgdir newsz oldsz).cases with ⟨e,fail,soft⟩ | ⟨⟨sz,m2⟩,ok,_⟩
          · rw [fail]
            exact soft
          · rw [ok]
            trivial
        · rename_i mem m1 _
          rcases (mappages_soft (m1.clear mem) pgdir a pgsize mem true true).cases with
            ⟨e,fail,soft⟩ | ⟨⟨_ | _,m2⟩,ok,_⟩
          · rw [fail]
            exact soft
          · rw [ok]
            rcases (deallocuvm_soft m2 pgdir newsz oldsz).cases with ⟨e,fail,soft⟩ | ⟨⟨sz,m3⟩,ok,_⟩
            · dsimp only
              rw [fail]
              exact soft
            · dsimp only
              rw [ok]
              trivial
          · rw [ok]
            exact ih m2 _
      · trivial
  unfold allocuvm
  split
  · trivial
  · split
    · trivial
    · exact loop _ _ _

theorem uva2ka_soft (m : Vm) (pgdir : Page) (va : Nat) : Meets Soft (uva2ka m pgdir va) (fun _ => True) := by
  unfold uva2ka
  split
  · exact Meets.error (by decide)
  · trivial

theorem copyout_soft (m : Vm) (pgdir : Page) (va : Nat) (p : Buffer) (len : Nat) :
    Meets Soft (copyout m pgdir va p len) (fun _ => True) := by
  have loop (fuel : Nat) (m : Vm) (va done : Nat) :
      Meets Soft (copyoutLoop pgdir p len fuel m va done) (fun _ => True) := by
    induction fuel generalizing m va done with
    | zero => exact Meets.error (by decide)
    | succ fuel ih =>
      unfold copyoutLoop
      split
      · rcases (uva2ka_soft m pgdir (pgrounddown va)).cases with ⟨e,fail,soft⟩ | ⟨_ | page,ok,_⟩
        · dsimp only
          rw [fail]
          exact soft
        · dsimp only
          rw [ok]
          trivial
        · dsimp only
          rw [ok]
          exact ih _ _ _
      · trivial
  exact loop _ _ _ _

theorem clearpteu_soft (m : Vm) (pgdir : Page) (va : Nat) : Meets Soft (clearpteu m pgdir va) (fun _ => True) := by
  unfold clearpteu
  split
  · exact Meets.error (by decide)
  · trivial

theorem touch_soft (k : State) (va n : Nat) :
    Meets Soft (touch k va n) (fun k' => k' = { k with touched := k'.touched }) := by
  unfold touch
  split
  · rfl
  · exact Meets.error (by decide)

/-- The files and the working directory stay while user memory is read and an
address space is filled. -/
structure Filling (k k' : State) : Prop where
  fs : k'.fs = k.fs
  file : k'.file = k.file
  proc : k'.proc = k.proc

theorem pushArgs_soft (pgdir : Page) (argv : List (Nat × Nat)) (k : State) (sp : Nat) (pushed : List Nat) :
    Meets Soft (pushArgs pgdir argv k sp pushed) (fun r => Filling k r.2) := by
  induction argv generalizing k sp pushed with
  | nil => exact ⟨rfl,rfl,rfl⟩
  | cons arg argv ih =>
    obtain ⟨addr,len⟩ := arg
    unfold pushArgs
    split
    · exact ⟨rfl,rfl,rfl⟩
    · rcases (touch_soft k addr (len + 1)).cases with ⟨e,fail,soft⟩ | ⟨now,ok,same⟩
      · rw [fail]
        exact soft
      · rw [ok]
        have fs : now.fs = k.fs := by rw [same]
        have file : now.file = k.file := by rw [same]
        have proc : now.proc = k.proc := by rw [same]
        dsimp only
        rcases (copyout_soft now.vm pgdir (u32 (sp + 4294967296 - u32 (len + 1)) / 4 * 4) (userMem now addr)
          (len + 1)).cases with ⟨e,fail,soft⟩ | ⟨⟨_ | _,m1⟩,ok,_⟩
        · rw [fail]
          exact soft
        · rw [ok]
          exact ⟨fs,file,proc⟩
        · rw [ok]
          refine (ih { now with vm := m1 } _ _).mono fun r later => ?_
          exact ⟨later.fs.trans fs,later.file.trans file,later.proc.trans proc⟩

end memory

section exec
variable {Inv : List Handle → FsState → Prop} {hs : List Handle} {k : State} {fs : FsState} {ip : Slot} {m : Mode}
  {vm : Vm} {pgdir : Page}

theorem Reader.loaduvm (reader : Reader Inv) (inv : Inv hs fs) (member : (ip,m) ∈ hs)
    (valid : (fs.icache ip).valid = true) (addr offset sz : Nat) :
    Meets Soft (loaduvm fs vm pgdir addr ip offset sz) (fun r => Inv hs r.2.1 ∧ (r.2.1.icache ip).valid = true) := by
  have loop (fuel : Nat) (fs : FsState) (vm : Vm) (i : Nat) (inv : Inv hs fs) (valid : (fs.icache ip).valid = true) :
      Meets Soft (loaduvmLoop pgdir addr ip offset sz fuel fs vm i)
        (fun r => Inv hs r.2.1 ∧ (r.2.1.icache ip).valid = true) := by
    induction fuel generalizing fs vm i with
    | zero => exact Meets.error (by decide)
    | succ fuel ih =>
      unfold loaduvmLoop
      split
      · split
        · exact Meets.error (by decide)
        · rename_i pgtab j _
          have read := reader.read (vm.frame (vm.table pgtab j).page) (u32 (offset + i)) (min (sz - i) pgsize)
            inv member valid (lt_of_le_of_lt (min_le_right _ _) (by decide))
          have still := (readi_mapped fs ip (vm.frame (vm.table pgtab j).page) (u32 (offset + i))
            (min (sz - i) pgsize)).toLocal.valid ip
          dsimp only
          generalize readi fs ip (vm.frame (vm.table pgtab j).page) (u32 (offset + i)) (min (sz - i) pgsize) = result
            at read still ⊢
          obtain ⟨r,dst,fs1⟩ := result
          rw [valid] at still
          dsimp only at read still ⊢
          split
          · exact ⟨read,still⟩
          · exact ih _ _ _ read still
      · exact ⟨inv,valid⟩
  exact loop _ _ _ _ inv valid

theorem Reader.loadProgram (reader : Reader Inv) (inv : Inv hs fs) (member : (ip,m) ∈ hs)
    (valid : (fs.icache ip).valid = true) (phnum sz off : Nat) :
    Meets Soft (loadProgram pgdir ip phnum fs vm sz off) (fun r => Inv hs r.2.1) := by
  induction phnum generalizing fs vm sz off with
  | zero => exact inv
  | succ phnum ih =>
    unfold Kernel.loadProgram
    have read := reader.read fs.stack off proghdrSize inv member valid (by decide)
    have still := (readi_mapped fs ip fs.stack off proghdrSize).toLocal.valid ip
    generalize readi fs ip fs.stack off proghdrSize = result at read still ⊢
    obtain ⟨r,b,fs1⟩ := result
    rw [valid] at still
    dsimp only at read still ⊢
    split
    · exact read
    · split
      · exact ih read still _ _
      · split
        · exact read
        · split
          · exact read
          · rcases (allocuvm_soft vm pgdir sz (u32 ((Proghdr.decode b).vaddr + (Proghdr.decode b).memsz))).cases with
              ⟨e,fail,soft⟩ | ⟨⟨sz1,vm1⟩,ok,_⟩
            · rw [fail]
              exact soft
            · rw [ok]
              dsimp only
              split
              · exact read
              · split
                · exact read
                · rcases (reader.loaduvm read member still (Proghdr.decode b).vaddr
                    (Proghdr.decode b).off (Proghdr.decode b).filesz).cases with
                    ⟨e,fail,soft⟩ | ⟨⟨_ | _,fs2,vm2⟩,ok,load,loaded⟩
                  · rw [fail]
                    exact soft
                  · rw [ok]
                    exact load
                  · rw [ok]
                    exact ih load loaded _ _

/-- Whatever becomes of the program, its open files and its directory stay. -/
structure Stays (Inv : List Handle → FsState → Prop) (hs : List Handle) (k k' : State) : Prop where
  inv : Inv hs k'.fs
  file : k'.file = k.file
  ofile : k'.proc.ofile = k.proc.ofile
  cwd : k'.proc.cwd = k.proc.cwd

theorem Stays.after {k' k'' : State} (stays : Stays Inv hs k' k'') (file : k'.file = k.file)
    (ofile : k'.proc.ofile = k.proc.ofile) (cwd : k'.proc.cwd = k.proc.cwd) : Stays Inv hs k k'' :=
  ⟨stays.inv,stays.file.trans file,stays.ofile.trans ofile,stays.cwd.trans cwd⟩

theorem Safe.stays {k' : State} (safe : Safe Inv k) (stays : Stays Inv k.handles k k') : Safe Inv k' := by
  refine ⟨?_,?_⟩
  · rw [stays.file,stays.ofile]
    exact safe.table
  · rw [State.handles,stays.file,stays.cwd]
    exact stays.inv

/-- The state after a failure, or after the program is replaced. -/
theorem Reader.execFree (reader : Reader Inv) (pgdir : Page) (ip : Option Slot)
    (inv : Inv ((ip.toList.map fun s => (s,.read)) ++ hs) k.fs) :
    Meets Soft (execFree k pgdir ip) (fun r => Stays Inv hs k r.2) := by
  unfold Kernel.execFree
  rcases (freevm_soft k.vm pgdir).cases with ⟨e,fail,soft⟩ | ⟨vm,ok,_⟩
  · rw [fail]
    exact soft
  · rw [ok]
    cases ip with
    | none => exact ⟨inv,rfl,rfl,rfl⟩
    | some ip => exact ⟨reader.unlockput inv,rfl,rfl,rfl⟩

theorem Reader.execStack (reader : Reader Inv) (inv : Inv hs k.fs) (pgdir : Page) (sz entry : Nat) (path : Nat × Nat)
    (sp : Nat) (pushed : List Nat) :
    Meets Soft (execStack k pgdir sz entry path sp pushed) (fun r => Stays Inv hs k r.2) := by
  unfold Kernel.execStack
  dsimp only
  rcases (copyout_soft k.vm pgdir (u32 (sp + 4294967296 - 4 * (ustack sp pushed).length))
    (Bytes.words fun i => BitVec.ofNat 32 ((ustack sp pushed).getD i 0)) (4 * (ustack sp pushed).length)).cases with
    ⟨e,fail,soft⟩ | ⟨⟨_ | _,vm1⟩,ok,_⟩
  · rw [fail]
    exact soft
  · rw [ok]
    have freed := @Reader.execFree Inv hs { k with vm := vm1 } reader pgdir none inv
    exact freed.mono fun r stays => stays.after rfl rfl rfl
  rw [ok]
  dsimp only
  rcases (touch_soft { k with vm := vm1 } path.1 (path.2 + 1)).cases with ⟨e,fail,soft⟩ | ⟨now,ok,same⟩
  · rw [fail]
    exact soft
  rw [ok]
  dsimp only
  rcases (freevm_soft now.vm now.proc.pgdir).cases with ⟨e,fail,soft⟩ | ⟨vm2,ok,_⟩
  · rw [fail]
    exact soft
  rw [ok,same]
  exact ⟨inv,rfl,rfl,rfl⟩

theorem Reader.execCommit (reader : Reader Inv) (inv : Inv hs k.fs) (pgdir : Page) (sz entry : Nat) (path : Nat × Nat)
    (argv : List (Nat × Nat)) :
    Meets Soft (execCommit k pgdir sz entry path argv) (fun r => Stays Inv hs k r.2) := by
  unfold Kernel.execCommit
  dsimp only
  have free (k1 : State) (inv1 : Inv hs k1.fs) : Meets Soft (Kernel.execFree k1 pgdir none) (fun r => Stays Inv hs k1 r.2) :=
    reader.execFree pgdir none inv1
  rcases (allocuvm_soft k.vm pgdir (pgroundup sz) (u32 (pgroundup sz + 2*pgsize))).cases with
    ⟨e,fail,soft⟩ | ⟨⟨sz1,vm1⟩,ok,_⟩
  · rw [fail]
    exact soft
  rw [ok]
  dsimp only
  split
  · exact (free { k with vm := vm1 } inv).mono fun r stays => stays.after rfl rfl rfl
  rcases (clearpteu_soft vm1 pgdir (u32 (sz1 + 4294967296 - 2*pgsize))).cases with ⟨e,fail,soft⟩ | ⟨vm2,ok,_⟩
  · rw [fail]
    exact soft
  rw [ok]
  dsimp only
  rcases (pushArgs_soft pgdir argv { k with vm := vm2 } sz1 []).cases with
    ⟨e,fail,soft⟩ | ⟨⟨_ | ⟨sp,pushed⟩,k3⟩,ok,filling⟩
  · rw [fail]
    exact soft
  · rw [ok]
    exact (free k3 (by rw [filling.fs]; exact inv)).mono fun r stays =>
      stays.after filling.file (by rw [filling.proc]) (by rw [filling.proc])
  · rw [ok]
    exact (reader.execStack (by rw [filling.fs]; exact inv) pgdir sz1 entry path sp pushed).mono fun r stays =>
      stays.after filling.file (by rw [filling.proc]) (by rw [filling.proc])

theorem Reader.execLoad (reader : Reader Inv) (inv : Inv ((ip,.read) :: hs) k.fs) (valid : (k.fs.icache ip).valid = true)
    (pgdir : Page) (elf : Elfhdr) (path : Nat × Nat) (argv : List (Nat × Nat)) :
    Meets Soft (execLoad k pgdir ip elf path argv) (fun r => Stays Inv hs k r.2) := by
  unfold Kernel.execLoad
  rcases (reader.loadProgram inv List.mem_cons_self valid elf.phnum 0 elf.phoff).cases with
    ⟨e,fail,soft⟩ | ⟨⟨_ | sz,fs,vm⟩,ok,inv1⟩
  · rw [fail]
    exact soft
  · rw [ok]
    have freed := @Reader.execFree Inv hs { k with fs := fs,vm := vm } reader pgdir (some ip) inv1
    exact freed.mono fun r stays => stays.after rfl rfl rfl
  · rw [ok]
    have committed := @Reader.execCommit Inv hs { k with fs := iunlockput fs ip,vm := vm } reader (reader.unlockput inv1) pgdir
      sz elf.entry path argv
    exact committed.mono fun r stays => stays.after rfl rfl rfl

theorem Reader.exec (reader : Reader Inv) (inv : Inv hs k.fs) (room : hs.length < 48) (here : (k.proc.cwd,m) ∈ hs)
    (data : Nat) (path : Nat × Nat) (argv : List (Nat × Nat)) :
    Meets Soft (exec data k path argv) (fun r => Stays Inv hs k r.2) := by
  unfold Kernel.exec
  rcases (touch_soft k path.1 (path.2 + 1)).cases with ⟨e,fail,soft⟩ | ⟨k1,ok,same⟩
  · rw [fail]
    exact soft
  rw [ok]
  dsimp only
  obtain ⟨fs1,file1,proc1⟩ : k1.fs = k.fs ∧ k1.file = k.file ∧ k1.proc = k.proc := by
    rw [same]
    exact ⟨rfl,rfl,rfl⟩
  rw [← proc1] at here
  rw [← fs1] at inv
  have stopped (fs : FsState) (inv : Inv hs fs) (vm : Vm) : Stays Inv hs k { k1 with fs := fs,vm := vm } :=
    ⟨inv,file1,by rw [proc1],by rw [proc1]⟩
  rcases (reader.namei inv room here (userString k1 path.1 path.2)).cases with
    ⟨e,fail,tolerated⟩ | ⟨⟨_ | ip,fs⟩,ok,inv⟩
  · rw [fail]
    exact (permitted_of_tolerated (k := k1) tolerated).1
  · rw [ok]
    exact stopped fs inv k1.vm
  rw [ok]
  dsimp only at inv ⊢
  have locked := reader.lock inv List.mem_cons_self
  have valid := ilock_valid fs ip
  have read := reader.read fs.stack 0 elfhdrSize locked List.mem_cons_self valid (by decide)
  have still := (readi_mapped (ilock fs ip) ip fs.stack 0 elfhdrSize).toLocal.valid ip
  rw [valid] at still
  generalize readi (ilock fs ip) ip fs.stack 0 elfhdrSize = result at read still ⊢
  obtain ⟨r,b,fs1⟩ := result
  dsimp only at read still ⊢
  split
  · exact stopped _ (reader.unlockput read) k1.vm
  split
  · exact stopped _ (reader.unlockput read) k1.vm
  rcases (setupkvm_soft data k1.vm).cases with ⟨e,fail,soft⟩ | ⟨⟨_ | pgdir,vm⟩,ok,_⟩
  · rw [fail]
    exact soft
  · rw [ok]
    exact stopped _ (reader.unlockput read) vm
  · rw [ok]
    have loaded := @Reader.execLoad Inv hs { k1 with fs := fs1,vm := vm } ip reader read still pgdir (Elfhdr.decode b) path argv
    exact loaded.mono fun r stays => stays.after file1 (by rw [proc1]) (by rw [proc1])

theorem Guard.exec (guard : Guard Inv) (inv : Inv hs k.fs) (room : hs.length < 48) (here : (k.proc.cwd,m) ∈ hs)
    (data : Nat) (path : Nat × Nat) (argv : List (Nat × Nat)) :
    Meets Soft (exec data k path argv) (fun r => Stays Inv hs k r.2) := guard.reads.exec inv room here data path argv

theorem Safe.exec (guard : Guard Inv) (safe : Safe Inv k) (data : Nat) (path : Nat × Nat) (argv : List (Nat × Nat)) :
    Meets Soft (exec data k path argv) (fun r => Safe Inv r.2) :=
  (guard.exec safe.inv safe.room List.mem_cons_self data path argv).mono fun _ stays => safe.stays stays

end exec

theorem printString_soft (k : State) (addr fuel i : Nat) :
    Meets Soft (printString k addr fuel i) (fun k' => k' = { k with touched := k'.touched }) := by
  induction fuel generalizing k i with
  | zero => exact Meets.error (by decide)
  | succ fuel ih =>
    unfold printString
    rcases (touch_soft k (addr + i) 1).cases with ⟨e,fail,soft⟩ | ⟨k1,ok,same⟩
    · rw [fail]
      exact soft
    · rw [ok]
      dsimp only
      split
      · exact same
      · refine (ih k1 (i+1)).mono fun k2 later => ?_
        rw [later,same]

section syscalls
variable {Inv : List Handle → FsState → Prop} {k k' : State}

theorem Safe.touched (safe : Safe Inv k) (same : k' = { k with touched := k'.touched }) : Safe Inv k' := by
  rw [same]
  exact ⟨safe.table,safe.inv⟩

theorem Safe.sysExec (guard : Guard Inv) (safe : Safe Inv k) (data : Nat) :
    Meets Soft (sysExec data k) (fun r => Safe Inv r.2) := by
  unfold Kernel.sysExec
  rcases (argstr_accessed k 0).cases with ⟨e,fail,permitted⟩ | ⟨⟨_ | path,k1⟩,ok,first,_⟩
  · rw [fail]
    exact permitted.1
  · rw [ok]
    exact safe.accessed first
  rw [ok]
  have safe1 := safe.accessed first
  dsimp only
  rcases (argint_accessed k1 1).cases with ⟨e,fail,permitted⟩ | ⟨⟨_ | uargv,k2⟩,ok,second,_⟩
  · rw [fail]
    exact permitted.1
  · rw [ok]
    exact safe1.accessed second
  rw [ok]
  have safe2 := safe1.accessed second
  dsimp only
  rcases (argvLoop_accessed k2 uargv maxarg 0).cases with ⟨e,fail,permitted⟩ | ⟨⟨_ | argv,k3⟩,ok,third,_⟩
  · rw [fail]
    exact permitted.1
  · rw [ok]
    exact safe2.accessed third
  rw [ok]
  have safe3 := safe2.accessed third
  dsimp only
  rcases (printString_soft k3 path.1 4294967296 0).cases with ⟨e,fail,soft⟩ | ⟨k4,ok,same4⟩
  · rw [fail]
    exact soft
  rw [ok]
  have safe4 := safe3.touched same4
  dsimp only
  rcases (printString_soft k4 ((argv.head?.map Prod.fst).getD 0) 4294967296 0).cases with ⟨e,fail,soft⟩ | ⟨k5,ok,same5⟩
  · rw [fail]
    exact soft
  rw [ok]
  exact Safe.exec guard (safe4.touched same5) data path argv

/-- Every system call keeps the invariant, and finds a slot whenever it asks for one. -/
theorem Safe.dispatch (guard : Guard Inv) (safe : Safe Inv k) (data : Nat) (call : Call) :
    Meets Soft (dispatch data k call) (fun r => Safe Inv r.2) := by
  have plain {r : Except Fault (Int × State)}
      (meets : Meets (Permitted k) r (fun r => Safe Inv r.2 ∧ Remains k r.2)) :
      Meets Soft r (fun r => Safe Inv r.2) := by
    cases r with
    | ok r => exact meets.1
    | error e => exact meets.1
  cases call with
  | open_ => exact plain (Safe.sysOpen guard safe)
  | mknod => exact plain (Safe.sysMknod guard safe)
  | read => exact plain (Safe.sysRead guard safe)
  | write => exact plain (Safe.sysWrite guard safe)
  | close => exact plain (Safe.sysClose guard safe)
  | fstat => exact plain (Safe.sysFstat guard safe)
  | exec => exact Safe.sysExec guard safe data

end syscalls

end Lxos.Kernel
