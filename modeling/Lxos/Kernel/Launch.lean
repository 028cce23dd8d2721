import Lxos.Kernel.Provision
import Lxos.Fs.Upkeep
import Mathlib.Data.List.Forall2

/-! A program that `exec` has started: its memory holds the segments of the file, and the
last page of it the arguments as the program expects them. -/
namespace Lxos.Kernel
open Lxos.Bytes Lxos.Fs Lxos.Outcome Lxos.Inventory

/-- The words at the stack pointer: a return address that leads nowhere, the number of the
arguments, the address of their array, and the array. -/
def startWords (esp : Nat) (ptrs : List Nat) : List Nat := [4294967295,ptrs.length,esp + 12] ++ ptrs ++ [0]

/-- What `exec` promises of a program with the file `f` and the arguments `argv` of the caller. -/
structure Started (f : Buffer) (argv : List (Nat × Nat)) (k k' : State) : Prop where
  whole : k'.proc.sz % pgsize = 0 ∧ 2 * pgsize ≤ k'.proc.sz
  present : ∀ va < k'.proc.sz, (translate k'.vm k'.proc.pgdir va).isSome
  user : ∀ va < k'.proc.sz, (k'.vm.pte k'.proc.pgdir (va / pgsize)).user = true ↔
    va / pgsize ≠ (k'.proc.sz - 2 * pgsize) / pgsize
  fit : Fit (k'.proc.sz - 2 * pgsize) (headers f (Elfhdr.decode f).phnum (Elfhdr.decode f).phoff)
  image : ∀ va < k'.proc.sz - 2 * pgsize, userByte k' va =
    segments f zeros (headers f (Elfhdr.decode f).phnum (Elfhdr.decode f).phoff) va
  entry : k'.proc.eip = (Elfhdr.decode f).entry
  inside : k'.proc.sz - pgsize ≤ k'.proc.esp ∧ k'.proc.esp + 4 * (argv.length + 4) ≤ k'.proc.sz
  stack : ∃ ptrs : List Nat, (∀ i < argv.length + 4,
      (le32 (userMem k' k'.proc.esp) (4 * i)).toNat = (startWords k'.proc.esp ptrs).getD i 0) ∧
    List.Forall₂ (fun arg ptr => Argument k (userByte k') (k'.proc.sz - pgsize) k'.proc.sz arg ptr ∧
      userByte k' (ptr + arg.2) = 0) argv ptrs

section launch
variable {all : List Page} {kpgdir d : Page} {k₀ k k' : State} {argv : List (Nat × Nat)} {path : Nat × Nat}
  {g s sp sz entry n va : Nat} {open_ : Nat → Bool} {b : Buffer} {pushed ptrs : List Nat}

theorem Contents.userByte (holds : Contents k.vm k.proc.pgdir n open_ b) (low : va < n * 4096) : userByte k va = b va := by
  have bound := holds.bound
  have present := holds.present (by omega : va / 4096 < n)
  unfold Kernel.userByte
  rw [translate_eq (by omega),if_pos present]
  exact holds.byte va low

theorem execFree_failed {ip : Option Slot} {r : Int × State} (ok : execFree k d ip = .ok r) : r.1 = -1 := by
  unfold execFree at ok
  split at ok
  · cases ok
  · dsimp only at ok
    split at ok
    · obtain rfl := Except.ok.inj ok
      rfl
    · obtain rfl := Except.ok.inj ok
      rfl

/-- From here on the file system is left alone. -/
theorem execFree_fs {r : Int × State} (ok : execFree k d none = .ok r) : r.2.fs = k.fs := by
  unfold execFree at ok
  split at ok
  · cases ok
  · obtain rfl := Except.ok.inj ok
    rfl

theorem touch_fs {addr len : Nat} (ok : touch k addr len = .ok k') : k'.fs = k.fs := by
  unfold touch at ok
  split at ok
  · rw [← Except.ok.inj ok]
  · cases ok

theorem pushArgs_fs {r : Option (Nat × List Nat) × State} (ok : pushArgs d argv k sp pushed = .ok r) : r.2.fs = k.fs := by
  induction argv generalizing k sp pushed with
  | nil =>
    obtain rfl := Except.ok.inj ok
    rfl
  | cons arg argv ih =>
    unfold pushArgs at ok
    split at ok
    · obtain rfl := Except.ok.inj ok
      rfl
    split at ok
    · cases ok
    rename_i touched
    dsimp only at ok
    split at ok
    · cases ok
    · obtain rfl := Except.ok.inj ok
      exact (touch_fs touched).trans rfl
    · exact (ih ok).trans ((touch_fs touched).trans rfl)

theorem execStack_fs {r : Int × State} (ok : execStack k d sz entry path sp pushed = .ok r) : r.2.fs = k.fs := by
  unfold execStack at ok
  dsimp only at ok
  split at ok
  · cases ok
  · exact (execFree_fs ok).trans rfl
  split at ok
  · cases ok
  rename_i touched
  split at ok
  · cases ok
  · obtain rfl := Except.ok.inj ok
    exact (touch_fs touched).trans rfl

theorem execCommit_fs {r : Int × State} (ok : execCommit k d sz entry path argv = .ok r) : r.2.fs = k.fs := by
  unfold execCommit at ok
  dsimp only at ok
  split at ok
  · cases ok
  split at ok
  · exact (execFree_fs ok).trans rfl
  split at ok
  · cases ok
  split at ok
  · cases ok
  · rename_i args
    exact (execFree_fs ok).trans (pushArgs_fs args)
  · rename_i args
    exact (execStack_fs ok).trans (pushArgs_fs args)

/-- The words under the arguments. -/
theorem Loading.stacked (paged : Paged all kpgdir k₀) (loading : Loading k₀ d k) (string : path.1 + path.2 < k₀.proc.sz)
    (holds : Contents k.vm d (g + 2) (guarded g) b) (low : (g + 1) * 4096 ≤ sp) (high : sp ≤ (g + 2) * 4096)
    (four : sp % 4 = 0) (few : pushed.length ≤ 5) (ok : Kernel.execStack k d sz entry path sp pushed = .ok (0,k')) :
    k'.proc.pgdir = d ∧ k'.proc.sz = sz ∧ k'.proc.eip = entry ∧ (g + 1) * 4096 ≤ k'.proc.esp ∧
      k'.proc.esp + 4 * (pushed.length + 4) = sp ∧ Contents k'.vm d (g + 2) (guarded g)
        (blit b k'.proc.esp (4 * (pushed.length + 4)) (Bytes.words fun i => BitVec.ofNat 32 ((ustack sp pushed).getD i 0))) := by
  have bound := holds.bound
  unfold Kernel.execStack at ok
  dsimp only at ok
  rw [ustack_length] at ok
  have same : u32 (sp + 4294967296 - 4 * (pushed.length + 4)) = u32 (sp + 4294967296 - 4 * (pushed.length + 4)) / 4 * 4 := by
    unfold u32
    omega
  split at ok
  · cases ok
  · cases execFree_failed ok
  rename_i m copied
  rw [same] at copied
  obtain ⟨t,ht,_,last,room,_,fills,held⟩ := holds.push (by omega) (by omega) low high copied
  have filled := loading.vm (loading.building.fills fills)
  obtain ⟨now,touched,here,reading⟩ := filled.touch paged string
  rw [touched] at ok
  obtain ⟨m1,freed,_,apart⟩ := reading.spared paged
  dsimp only at ok
  rw [freed] at ok
  obtain ⟨_,rfl⟩ := Prod.mk.inj (Except.ok.inj ok)
  rw [← same] at ht
  dsimp only
  rw [← ht]
  refine ⟨rfl,rfl,rfl,last,?_,?_⟩
  · unfold u32 at ht
    omega
  · have same : now.vm = m := here
    rw [← same] at held
    exact held.congr (fun q owned => (apart q (Or.inl owned)).1) fun q owned => (apart q (Or.inl owned)).2

/-- What is left of the old stack pointer in the words is relative to the new one. -/
theorem ustack_start (inside : sp < 4294967296) (room : 4 * (pushed.length + 4) ≤ sp) :
    ustack sp pushed = startWords (sp - 4 * (pushed.length + 4)) pushed := by
  have array : u32 (sp + 4294967296 - 4 * (pushed.length + 1)) = sp - 4 * (pushed.length + 4) + 12 := by
    unfold u32
    omega
  unfold ustack startWords
  rw [array]

theorem startWords_lt {esp top : Nat} (words : ∀ ptr ∈ ptrs, ptr < top) (few : ptrs.length < top) (low : esp + 12 < top)
    (high : 4294967295 < top) (i : Nat) : (startWords esp ptrs).getD i 0 < top := by
  rw [List.getD_eq_getElem?_getD]
  cases here : (startWords esp ptrs)[i]? with
  | none => exact Nat.zero_lt_of_lt few
  | some w =>
    have member := List.mem_of_getElem? here
    simp only [startWords,List.mem_append,List.mem_cons,List.not_mem_nil,or_false] at member
    rcases member with ((rfl | rfl | rfl) | inside) | rfl
    · exact high
    · exact few
    · exact low
    · exact words w inside
    · exact Nat.zero_lt_of_lt few

/-- The stack is made, and the program starts. -/
structure Committed (k₀ : State) (d : Page) (g entry : Nat) (b : Buffer) (argv : List (Nat × Nat)) (k' : State) : Prop where
  pgdir : k'.proc.pgdir = d
  sz : k'.proc.sz = (g + 2) * 4096
  eip : k'.proc.eip = entry
  stack : ∃ b' ptrs, Contents k'.vm d (g + 2) (guarded g) b' ∧ (∀ a < g * 4096, b' a = b a) ∧
    (g + 1) * 4096 ≤ k'.proc.esp ∧ k'.proc.esp + 4 * (argv.length + 4) ≤ (g + 2) * 4096 ∧
    (∀ i < argv.length + 4, (le32 b' (k'.proc.esp + 4 * i)).toNat = (startWords k'.proc.esp ptrs).getD i 0) ∧
    List.Forall₂ (Argument k₀ b' ((g + 1) * 4096) ((g + 2) * 4096)) argv ptrs

theorem Loading.committed (paged : Paged all kpgdir k₀) (loading : Loading k₀ d k) (string : path.1 + path.2 < k₀.proc.sz)
    (strings : ∀ s ∈ argv, StringAt k₀ s.1 s.2) (few : argv.length ≤ maxarg)
    (holds : Contents k.vm d (pages s) (fun _ => true) b) (limit : s < 2147483648)
    (ok : Kernel.execCommit k d s entry path argv = .ok (0,k')) : Committed k₀ d (pages s) entry b argv k' := by
  have bound := holds.bound
  have nodup := loading.building.nodup paged.freelist_nodup
  unfold Kernel.execCommit at ok
  dsimp only at ok
  rw [pgroundup_eq (by omega)] at ok
  generalize pages s = g at holds bound ok ⊢
  rw [next_pages bound] at ok
  split at ok
  · cases ok
  rename_i r m grown
  split at ok
  · cases execFree_failed ok
  rename_i some_size
  have low : g * 4096 < 2147483648 := by
    by_contra high
    rw [allocuvm_high _ _ _ (by omega)] at grown
    exact some_size (Prod.mk.inj (Except.ok.inj grown)).1.symm
  rw [← pages_whole g] at holds
  obtain ⟨top,size,works,sealing,held⟩ := holds.alloc rfl nodup low grown some_size
  obtain rfl : r = (g + 2) * 4096 := by omega
  rw [pages_whole] at held
  rw [guard_page bound] at ok
  have built := loading.building.step works sealing
  split at ok
  · cases ok
  rename_i m1 cleared
  obtain ⟨works1,sealing1,closed⟩ := held.clear (built.nodup paged.freelist_nodup) (by omega) cleared
  have built1 := built.step works1 sealing1
  split at ok
  · cases ok
  · cases execFree_failed ok
  rename_i sp pushed k1 args
  obtain ⟨b',_,rfl,loading1,held1,last,under,four,away,copies⟩ := (loading.vm built1).arguments paged strings closed
    (by omega) (le_refl _) (by omega) args
  have count := copies.length_eq
  have small : pushed.length ≤ 5 := count ▸ few
  have each : List.Forall₂ (fun ptr (_ : Nat × Nat) => ptr < 4294967296 ∧ True) pushed argv := by
    refine List.Forall₂.flip (copies.imp fun arg ptr argument => ⟨?_,trivial⟩)
    have := argument.below
    omega
  have below := ((List.forall₂_and_left pushed argv).mp each).1
  obtain ⟨pgdir,sz,eip,low',room,held2⟩ := loading1.stacked paged string held1 last under four small ok
  refine ⟨pgdir,sz,eip,_,pushed,held2,fun a below => ?_,low',by omega,fun i inside => ?_,?_⟩
  · rw [blit_outside (by omega)]
    exact away a (by omega)
  · rw [le32_blit_words _ (by omega),ustack_start (by omega) (by omega),← room,Nat.add_sub_cancel,BitVec.toNat_ofNat]
    exact Nat.mod_eq_of_lt (startWords_lt below (by omega) (by omega) (by decide) i)
  · refine copies.imp fun arg ptr argument => argument.lift (by omega) (le_refl _) fun a lower upper => ?_
    exact blit_outside (by omega)

theorem Elfhdr.decode_congr {c : Buffer} (same : ∀ i < 52, b i = c i) : Elfhdr.decode b = Elfhdr.decode c := by
  have word (o : Nat) (low : o + 4 ≤ 52) : le32 b o = le32 c o := le32_congr fun i small => same (o + i) (by omega)
  have half : le16 b 44 = le16 c 44 := le16_congr fun i small => same (44 + i) (by omega)
  unfold Elfhdr.decode
  rw [word 0 (by decide),word 24 (by decide),word 28 (by decide),half]

theorem word_lt {i j count : Nat} (inside : i < count) (small : j < 4) : 4 * i + j < 4 * count := by
  omega

/-- A copied argument, as the new program reads it. -/
theorem Argument.read {k₁ : State} {low top ptr : Nat} {arg : Nat × Nat} (argument : Argument k₀ b low top arg ptr)
    (byte : ∀ va < top, Kernel.userByte k' va = b va) (bytes : ∀ va, Kernel.userByte k₀ va = Kernel.userByte k₁ va)
    (string : StringAt k₁ arg.1 arg.2) :
    Argument k₁ (Kernel.userByte k') low top arg ptr ∧ Kernel.userByte k' (ptr + arg.2) = 0 := by
  obtain ⟨above,below,copy⟩ := argument
  have same (j : Nat) (inside : j ≤ arg.2) : Kernel.userByte k' (ptr + j) = Kernel.userByte k₁ (arg.1 + j) := by
    rw [byte _ (by omega),copy j inside,bytes]
  exact ⟨⟨above,below,same⟩,(same _ (le_refl _)).trans string.zero⟩

/-- A committed program has started, when its segments were loaded first. -/
theorem Committed.started {f : Buffer} {k₁ : State} (committed : Committed k₀ d (pages s) (Elfhdr.decode f).entry
      (segments f zeros (headers f (Elfhdr.decode f).phnum (Elfhdr.decode f).phoff)) argv k')
    (fit : Fit s (headers f (Elfhdr.decode f).phnum (Elfhdr.decode f).phoff))
    (bytes : ∀ va, userByte k₀ va = userByte k₁ va) (strings : ∀ s ∈ argv, StringAt k₁ s.1 s.2) : Started f argv k₁ k' := by
  obtain ⟨pgdir,sz,eip,b,ptrs,holds,below,low,high,words,copies⟩ := committed
  have round : s ≤ pages s * 4096 := by
    unfold pages
    omega
  generalize pages s = g at sz holds below low high copies round
  have bound := holds.bound
  rw [← pgdir] at holds
  have byte (va : Nat) (inside : va < (g + 2) * 4096) := holds.userByte inside
  have guard : (g + 2) * 4096 - 2 * pgsize = g * 4096 := by
    rw [Nat.add_mul,Nat.add_sub_cancel]
  have last : (g + 2) * 4096 - pgsize = (g + 1) * 4096 := by
    rw [Nat.succ_mul,Nat.add_sub_cancel]
  constructor
  · rw [sz]
    exact ⟨Nat.mul_mod_left _ _,Nat.mul_le_mul_right 4096 (Nat.le_add_left 2 g)⟩
  · intro va inside
    rw [sz] at inside
    rw [translate_eq (by omega),if_pos (holds.present (by omega))]
    rfl
  · intro va inside
    rw [sz] at inside ⊢
    obtain ⟨q,entry⟩ := holds.entry (va / 4096) (by omega)
    rw [guard,entry]
    simp [guarded]
  · intro ph inside load
    rw [sz,guard]
    exact (fit ph inside load).trans round
  · intro va inside
    rw [sz,guard] at inside
    rw [byte va (inside.trans_le (Nat.mul_le_mul_right 4096 (Nat.le_add_right g 2)))]
    exact below va inside
  · exact eip
  · rw [sz,last]
    exact ⟨low,high⟩
  · refine ⟨ptrs,fun i inside => ?_,?_⟩
    · rw [← words i inside]
      refine congrArg BitVec.toNat (le32_congr fun j small => ?_)
      have fourth : 4 * i + j < 4 * (argv.length + 4) := word_lt inside small
      have room : k'.proc.esp + (4 * i + j) < (g + 2) * 4096 := (Nat.add_lt_add_left fourth _).trans_le high
      rw [Nat.add_assoc]
      exact byte _ room
    · rw [sz,last]
      exact (List.forall₂_and_left argv ptrs).mpr ⟨strings,copies⟩ |>.imp fun arg ptr ⟨string,argument⟩ =>
        argument.read byte bytes string

theorem iunlockput_trace (fs : FsState) (ip : Slot) : fs.trace <:+ (iunlockput fs ip).trace :=
  (iunlock_calm fs ip).trace.trans (iput_trace _ _)

theorem execLoad_trace {ip : Slot} {elf : Elfhdr} (ok : Kernel.execLoad k d ip elf path argv = .ok (0,k')) :
    k.fs.trace <:+ k'.fs.trace := by
  unfold Kernel.execLoad at ok
  split at ok
  · cases ok
  · cases execFree_failed ok
  rename_i s fs m loaded
  have fs' := execCommit_fs ok
  dsimp only at fs'
  rw [fs']
  exact (loadProgram_trace _ _ _ _ loaded).trans (iunlockput_trace fs ip)

/-- The program is loaded and started from an inode that is locked. -/
theorem Loading.launched {f : Buffer} {dev : Nat} {ip : Slot} (paged : Paged all kpgdir k₀)
    (loading : Loading k₀ d k) (empty : Extent k.vm d 0) (string : path.1 + path.2 < k₀.proc.sz)
    (strings : ∀ s ∈ argv, StringAt k₀ s.1 s.2) (few : argv.length ≤ maxarg)
    (bytes : (k.fs.volume dev).byte (k.fs.icache ip).inum = f) (ready : Ready dev ip k.fs)
    (ok : Kernel.execLoad k d ip (Elfhdr.decode f) path argv = .ok (0,k'))
    (clear : (k.fs.volume dev).Filled (k.fs.icache ip).inum ∨ k'.fs.exhausted = false) : Started f argv k₀ k' := by
  unfold Kernel.execLoad at ok
  have holds := Contents.empty (holdings_nodup (loading.building.nodup paged.freelist_nodup)) loading.building.sealing empty
  split at ok
  · cases ok
  · cases execFree_failed ok
  rename_i s fs m loaded
  have later : fs.trace <:+ k'.fs.trace := by
    rw [execCommit_fs ok]
    exact iunlockput_trace fs ip
  obtain ⟨limit,_,building,fit,held⟩ := loadProgram_loads paged.freelist_nodup (Elfhdr.decode f).phnum loading.building bytes
    ready holds (by decide) (le32 f 28).isLt loaded (clear.imp_right (exhausted_of_suffix later))
  have step : Loading k₀ d { k with fs := iunlockput fs ip,vm := m } := ⟨building,loading.proc,loading.file,loading.inside⟩
  have committed := step.committed paged string strings few held limit ok
  exact committed.started fit (fun _ => rfl) strings

/-- `exec`, when it returns 0. -/
theorem Paged.started {data : Nat} {ip : Slot} {fs : FsState} (paged : Paged all kpgdir k₀) (safe : Safe Counted k₀)
    (linked : Linked data) (string : StringAt k₀ path.1 path.2) (strings : ∀ s ∈ argv, StringAt k₀ s.1 s.2)
    (few : argv.length ≤ maxarg)
    (file : namei k₀.fs k₀.proc.cwd (userString k₀ path.1 path.2) = .ok (some ip,fs))
    (place : (fs.icache ip).inum < fs.sb.slots) (sound : (fs.volume (fs.icache ip).dev).Sound)
    (ok : Kernel.exec data k₀ path argv = .ok (0,k'))
    (clear : (fs.volume (fs.icache ip).dev).Filled (fs.icache ip).inum ∨ k'.fs.exhausted = false) :
    Started ((fs.volume (fs.icache ip).dev).byte (fs.icache ip).inum) argv k₀ k' := by
  have inside := string.inside
  have inv := (counted_guard.namei safe.inv safe.room List.mem_cons_self _).elim file
  have named : Named (fs.icache ip).dev ip fs := ⟨inv.unique,inv.positive List.mem_cons_self,rfl,place⟩
  have ready := ilock_ready named sound
  have volume := (ilock_loaded named).volume named
  have number := (ilock_calm fs ip).inum ip
  unfold Kernel.exec at ok
  rcases (touch_accessed k₀ path.1 (path.2 + 1) (fun _ => by omega)).cases with ⟨e,fail,permitted⟩ | ⟨k,here,accessed⟩
  · rw [fail] at ok
    cases ok
  have found : namei k.fs k.proc.cwd (userString k path.1 path.2) = .ok (some ip,fs) := by
    rw [accessed.fs,accessed.proc,userString,accessed.userMem]
    exact file
  rw [here] at ok
  dsimp only at ok
  rw [found] at ok
  dsimp only at ok
  have whole := readi_whole (n := 52) ready fs.stack 0 (by decide) (by decide)
  generalize readi (ilock fs ip) ip fs.stack 0 elfhdrSize = result at ok whole
  obtain ⟨r,b,fs1⟩ := result
  dsimp only at ok whole
  split at ok
  · cases ok
  rename_i full
  split at ok
  · cases ok
  have vm : k.vm = k₀.vm := accessed.vm
  obtain ⟨m,away,⟨none_left,_⟩ | ⟨d,made,conserve,empty,sealing,_⟩⟩ := setupkvm_spec (x := []) (m := k.vm) linked (by
    rw [vm]
    exact paged.freelist_nodup)
  · rw [none_left] at ok
    cases ok
  rw [made] at ok
  rw [vm] at away conserve
  dsimp only at ok
  have building : Building k₀.vm d m := ⟨conserve,fun q out => (away q out).1,fun q out => (away q out).2,sealing⟩
  have loading : Loading k₀ d { k with fs := fs1,vm := m } := ⟨building,accessed.proc,accessed.file,accessed.inside⟩
  have later : fs1.trace <:+ k'.fs.trace := execLoad_trace ok
  rw [volume,number] at whole
  obtain ⟨seen,_,copy⟩ := whole (clear.imp_right (exhausted_of_suffix later)) (not_not.mp full)
  have header : Elfhdr.decode b = Elfhdr.decode ((fs.volume (fs.icache ip).dev).byte (fs.icache ip).inum) := by
    refine Elfhdr.decode_congr fun i small => ?_
    have copied := @blit_inside fs.stack (fun i => (fs.volume (fs.icache ip).dev).byte (fs.icache ip).inum (0 + i)) 0 52 i small
    rw [Nat.zero_add] at copied
    rw [copy,copied]
  rw [header] at ok
  refine loading.launched paged empty inside strings few ?_ (seen.grown.ready ready) ok ?_
  · dsimp only
    rw [seen.byte,seen.inum,volume,number]
  · refine seen.clear ?_
    rw [volume,number]
    exact clear

end launch

end Lxos.Kernel
