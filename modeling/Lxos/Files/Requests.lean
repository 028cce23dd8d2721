import Lxos.Files.Serving
import Lxos.Kernel.Isolation

/-! System calls as requests. The arguments are fetched from user memory and checked; what
the call then does to the service is what the request says, and user memory changes in the
buffer of the program only. -/
namespace Lxos.Files
open Lxos.Bytes Lxos.Fs Lxos.Kernel Lxos.Outcome Lxos.Places

/-- The word that argument `n` is, if it lies in the memory of the process. -/
def word (k : State) (n : Nat) : Option Nat :=
  if u32 (k.proc.esp + 4 + 4*n) ≥ k.proc.sz ∨ u32 (u32 (k.proc.esp + 4 + 4*n) + 4) > k.proc.sz then none
  else some (le32 (userMem k (u32 (k.proc.esp + 4 + 4*n))) 0).toNat

/-- The string that argument `n` points to, which ends in the memory of the process. -/
def text (k : State) (n : Nat) : Option (List Byte) :=
  (word k n).bind fun addr =>
    ((List.range (k.proc.sz - addr)).find? fun i => userByte k (addr + i) = 0).map (userString k addr)

/-- The address of `size` bytes that argument `n` is. -/
def span (k : State) (n : Nat) (size : Int) : Option Nat :=
  (word k n).bind fun p => if size < 0 ∨ p ≥ k.proc.sz ∨ u32 (p + size.toNat) > k.proc.sz then none else some p

/-- The arguments of `read` and `write`: a descriptor, a buffer and its length. -/
def transfer (k : State) (make : Nat → Nat → Nat → Request) : Request :=
  ((word k 0).bind fun fd => (word k 2).bind fun n => (span k 1 (int32 n)).map fun p => make fd n p).getD .refused

/-- What a call asks for. `exec` concerns the program and no file. -/
def request (k : State) : Call → Option Request
  | .open_ => some (((text k 0).bind fun path => (word k 1).map fun omode => .open_ path omode).getD .refused)
  | .mknod => some (((text k 0).bind fun path => (word k 1).bind fun major => (word k 2).map fun minor =>
      .mknod path major minor).getD .refused)
  | .read => some (transfer k fun fd n _ => .read fd n)
  | .write => some (transfer k fun fd n p => .write fd (taken (userMem k p) n))
  | .close => some (((word k 0).map .close).getD .refused)
  | .fstat => some (((word k 0).bind fun fd => (span k 1 statSize).map fun _ => .fstat fd).getD .refused)
  | .exec => none

/-- The output of a request is copied to address `p`. -/
def deliver (k : State) (p : Nat) : Output → State
  | .none => k
  | .bytes l => storeUser k p (bytes l) l.length
  | .stat s => storeUser k p (statBytes (userMem k p) s) statSize

section fetch
variable {k k₁ : State} {n : Nat} {size : Int}

theorem argint_word {o : Option Nat} (ok : argint k n = .ok (o,k₁)) : o = word k n ∧ Accessed k k₁ := by
  have accessed := ((argint_accessed k n).elim ok).1
  refine ⟨?_,accessed⟩
  unfold argint getint at ok
  unfold word
  split at ok
  · rename_i outside
    rw [if_pos outside]
    exact (Prod.mk.inj (Except.ok.inj ok)).1.symm
  · rename_i inside
    rw [if_neg inside]
    split at ok
    · cases ok
    · rename_i k₂ touched
      obtain ⟨rfl,rfl⟩ := Prod.mk.inj (Except.ok.inj ok)
      rw [accessed.userMem]

theorem word_accessed (accessed : Accessed k k₁) (n : Nat) : word k₁ n = word k n := by
  unfold word
  rw [accessed.proc,accessed.userMem]

theorem argptr_span {o : Option Nat} (int : size < 2147483648) (ok : argptr k n size = .ok (o,k₁)) :
    o = span k n size ∧ Accessed k k₁ := by
  refine ⟨?_,(argptr_accessed k n int).elim ok⟩
  unfold argptr at ok
  unfold span
  split at ok
  · cases ok
  · rename_i k₂ fetched
    rw [← (argint_word fetched).1]
    exact (Prod.mk.inj (Except.ok.inj ok)).1.symm
  · rename_i p k₂ fetched
    obtain ⟨value,accessed⟩ := argint_word fetched
    rw [← value]
    dsimp only [Option.bind]
    rw [accessed.proc] at ok
    split at ok
    · rename_i bad
      rw [if_pos bad]
      exact (Prod.mk.inj (Except.ok.inj ok)).1.symm
    · rename_i good
      rw [if_neg good]
      split at ok
      · cases ok
      · exact (Prod.mk.inj (Except.ok.inj ok)).1.symm

/-- The loop of `getstr` finds the first zero. -/
theorem getstrLoop_first {addr fuel i : Nat} {o : Option Nat} (whole : addr + i + fuel = k.proc.sz)
    (before : ∀ j < i, userByte k (addr + j) ≠ 0) (ok : getstrLoop k addr fuel i = .ok (o,k₁)) :
    o = (List.range (k.proc.sz - addr)).find? fun i => userByte k (addr + i) = 0 := by
  induction fuel generalizing k i with
  | zero =>
    rw [← (Prod.mk.inj (Except.ok.inj ok)).1]
    refine (List.find?_range_eq_none.mpr fun j low => ?_).symm
    simpa using before j (by omega)
  | succ fuel ih =>
    unfold getstrLoop at ok
    rw [if_pos (by omega)] at ok
    split at ok
    · cases ok
    · rename_i k₂ touched
      have accessed := (touch_accessed k (addr + i) 1 (fun _ => by omega)).elim touched
      rw [accessed.userByte] at ok
      split at ok
      · rename_i zero
        rw [← (Prod.mk.inj (Except.ok.inj ok)).1]
        refine (List.find?_range_eq_some.mpr ⟨by simpa using zero,List.mem_range.mpr (by omega),fun j low => ?_⟩).symm
        simpa using before j low
      · rename_i more
        have later := ih (k := k₂) (i := i + 1) (by rw [accessed.proc]; omega) (fun j low => ?_) ok
        · rw [later,accessed.proc]
          simp only [accessed.userByte]
        · rw [accessed.userByte]
          rcases Nat.lt_succ_iff_lt_or_eq.mp low with less | rfl
          · exact before j less
          · exact more

theorem getstr_first {addr : Nat} {o : Option Nat} (ok : getstr k addr = .ok (o,k₁)) :
    o = (List.range (k.proc.sz - addr)).find? fun i => userByte k (addr + i) = 0 := by
  unfold getstr at ok
  split at ok
  · rename_i outside
    have nothing : k.proc.sz - addr = 0 := by omega
    rw [nothing,← (Prod.mk.inj (Except.ok.inj ok)).1]
    rfl
  · exact getstrLoop_first (by omega) (fun j low => absurd low (Nat.not_lt_zero j)) ok

theorem argstr_text {o : Option (Nat × Nat)} (ok : argstr k n = .ok (o,k₁)) :
    (o.map fun s => userString k s.1 s.2) = text k n ∧ Accessed k k₁ ∧ ∀ s, o = some s → 0 ∉ userString k s.1 s.2 := by
  have accessed := ((argstr_accessed k n).elim ok).1
  unfold argstr at ok
  unfold text
  split at ok
  · cases ok
  · rename_i k₂ fetched
    obtain ⟨rfl,rfl⟩ := Prod.mk.inj (Except.ok.inj ok)
    rw [← (argint_word fetched).1]
    exact ⟨rfl,accessed,fun s wrong => by cases wrong⟩
  · rename_i addr k₂ fetched
    obtain ⟨value,first⟩ := argint_word fetched
    rw [← value]
    dsimp only [Option.bind]
    split at ok
    · cases ok
    · rename_i k₃ none
      have found := getstr_first none
      simp only [first.proc,first.userByte] at found
      obtain ⟨rfl,rfl⟩ := Prod.mk.inj (Except.ok.inj ok)
      rw [← found]
      exact ⟨rfl,accessed,fun s wrong => by cases wrong⟩
    · rename_i len k₃ some
      have found := getstr_first some
      simp only [first.proc,first.userByte] at found
      obtain ⟨rfl,rfl⟩ := Prod.mk.inj (Except.ok.inj ok)
      rw [← found]
      refine ⟨rfl,accessed,fun s same => ?_⟩
      obtain rfl := Option.some.inj same
      intro zero
      obtain ⟨j,low,here⟩ := List.mem_map.mp zero
      have before := (List.find?_range_eq_some.mp found.symm).2.2 j (List.mem_range.mp low)
      simp only [Bool.not_eq_true',decide_eq_false_iff_not] at before
      exact before here

theorem word_bound {v : Nat} (value : word k n = some v) : v < 4294967296 := by
  unfold word at value
  split at value
  · cases value
  · rw [← Option.some.inj value]
    omega

/-- A number that is no descriptor is found when it is looked up. -/
theorem argfd_named {o : Option (Fin nofile × FileId)} (ok : argfd k n = .ok (o,k₁)) : Accessed k k₁ ∧
    (o = none → word k n = none ∨ ∃ v, word k n = some v ∧ (service k).lookup v = none) ∧
    ∀ fd f, o = some (fd,f) → word k n = some fd.val ∧ k.proc.ofile fd = some f := by
  refine ⟨((argfd_accessed k n).elim ok).1,?_⟩
  unfold argfd at ok
  split at ok
  · cases ok
  · rename_i k₂ fetched
    obtain ⟨rfl,rfl⟩ := Prod.mk.inj (Except.ok.inj ok)
    exact ⟨fun _ => Or.inl (argint_word fetched).1.symm,fun fd f wrong => by cases wrong⟩
  · rename_i v k₂ fetched
    obtain ⟨value,accessed⟩ := argint_word fetched
    split at ok
    · rename_i low
      rw [accessed.proc] at ok
      split at ok
      · rename_i vacant
        obtain ⟨rfl,rfl⟩ := Prod.mk.inj (Except.ok.inj ok)
        refine ⟨fun _ => Or.inr ⟨v,value.symm,?_⟩,fun fd f wrong => by cases wrong⟩
        unfold Service.lookup
        rw [dif_pos low]
        change ((k.proc.ofile ⟨v,low⟩).map (desc k)).map _ = none
        rw [vacant]
        rfl
      · rename_i f named
        obtain ⟨rfl,rfl⟩ := Prod.mk.inj (Except.ok.inj ok)
        refine ⟨(fun wrong => by cases wrong),fun fd' f' same => ?_⟩
        obtain ⟨rfl,rfl⟩ := Prod.mk.inj (Option.some.inj same)
        exact ⟨value.symm,named⟩
    · rename_i high
      obtain ⟨rfl,rfl⟩ := Prod.mk.inj (Except.ok.inj ok)
      exact ⟨fun _ => Or.inr ⟨v,value.symm,dif_neg high⟩,fun fd f wrong => by cases wrong⟩

theorem span_small {p m : Nat} (width : m < 4294967296) (inside : span k n (int32 m) = some p) : m < 2147483648 := by
  unfold span at inside
  obtain ⟨v,_,checked⟩ := Option.bind_eq_some_iff.mp inside
  split at checked
  · cases checked
  · rename_i good
    unfold int32 at good
    split at good
    · assumption
    · omega

theorem span_word {p : Nat} (inside : span k n size = some p) : (word k n).getD 0 = p := by
  unfold span at inside
  obtain ⟨v,value,checked⟩ := Option.bind_eq_some_iff.mp inside
  rw [value]
  split at checked
  · cases checked
  · exact Option.some.inj checked

/-- The arguments of a transfer, or why there are none. -/
theorem argbuf_transfer {o : Option (FileId × Nat × Nat)} (ok : argbuf k = .ok (o,k₁)) (make : Nat → Nat → Nat → Request) :
    Accessed k k₁ ∧
    (o = none → transfer k make = .refused ∨ ∃ fd n p, transfer k make = make fd n p ∧ (service k).lookup fd = none) ∧
    ∀ f p n, o = some (f,p,n) → n < 2147483648 ∧ span k 1 (int32 n) = some p ∧
      ∃ fd, k.proc.ofile fd = some f ∧ transfer k make = make fd.val n p := by
  refine ⟨((argbuf_accessed k).elim ok).1,?_⟩
  unfold argbuf at ok
  unfold transfer
  split at ok
  · cases ok
  · rename_i k₂ fetched
    obtain ⟨rfl,rfl⟩ := Prod.mk.inj (Except.ok.inj ok)
    refine ⟨fun _ => ?_,fun f p n wrong => by cases wrong⟩
    rcases (argfd_named fetched).2.1 rfl with none | ⟨v,value,missing⟩
    · rw [none]
      exact Or.inl rfl
    · rw [value]
      dsimp only [Option.bind]
      cases word k 2 with
      | none => exact Or.inl rfl
      | some n =>
        dsimp only
        cases span k 1 (int32 n) with
        | none => exact Or.inl rfl
        | some p => exact Or.inr ⟨v,n,p,rfl,missing⟩
  · rename_i fd f k₂ fetched
    obtain ⟨first,_,found⟩ := argfd_named fetched
    obtain ⟨value,named⟩ := found fd f rfl
    rw [value]
    dsimp only [Option.bind]
    split at ok
    · cases ok
    · rename_i k₃ fetched
      obtain ⟨rfl,rfl⟩ := Prod.mk.inj (Except.ok.inj ok)
      rw [← word_accessed first,← (argint_word fetched).1]
      exact ⟨fun _ => Or.inl rfl,fun f p n wrong => by cases wrong⟩
    · rename_i n k₃ fetched
      obtain ⟨count,second⟩ := argint_word fetched
      rw [word_accessed first] at count
      have width := word_bound count.symm
      rw [← count]
      dsimp only
      have two := first.trans second
      have same : span k₃ 1 (int32 n) = span k 1 (int32 n) := by
        unfold span
        rw [word_accessed two,two.proc]
      split at ok
      · cases ok
      · rename_i k₄ fetched
        obtain ⟨rfl,rfl⟩ := Prod.mk.inj (Except.ok.inj ok)
        rw [← same,← (argptr_span (int32_lt n width) fetched).1]
        exact ⟨fun _ => Or.inl rfl,fun f p n wrong => by cases wrong⟩
      · rename_i p k₄ fetched
        obtain ⟨rfl,rfl⟩ := Prod.mk.inj (Except.ok.inj ok)
        have place := (argptr_span (int32_lt n width) fetched).1.symm
        rw [same] at place
        rw [place]
        refine ⟨(fun wrong => by cases wrong),fun f' p' n' same => ?_⟩
        obtain ⟨rfl,rest⟩ := Prod.mk.inj (Option.some.inj same)
        obtain ⟨rfl,rfl⟩ := Prod.mk.inj rest
        exact ⟨span_small width place,place,fd,named,rfl⟩

end fetch

/-! The calls. -/
section calls
variable {strict : Prop} {loose : Nat → Prop} {marks : List (Slot × Nat)} {origin : FsState} {data : Nat}
  {k k' k₁ : State} {r : Int}

theorem service_accessed (accessed : Accessed k k₁) : service k₁ = service k := by
  rw [accessed.same]
  rfl

theorem service_stored (k : State) (va : Nat) (src : Buffer) (n : Nat) : service (storeUser k va src n) = service k := by
  obtain ⟨frame,stored⟩ := storeUser_frame k va src n
  rw [stored]
  rfl

/-- The request of a call, what the service answers to it and what happens to user memory. -/
structure Answers (k : State) (call : Call) (r : Int) (k' : State) : Prop where
  served : ∀ q, request k call = some q → ∃ out, (service k).serve q = .ok ((r,out),service k') ∧
    k'.vm = (deliver k ((word k 1).getD 0) out).vm
  silent : request k call = none → service k' = service k

theorem Answers.of {call : Call} (q : Request) (out : Output) (asked : request k call = some q)
    (served : (service k).serve q = .ok ((r,out),service k')) (vm : k'.vm = (deliver k ((word k 1).getD 0) out).vm) :
    Answers k call r k' := by
  refine ⟨fun q' here => ⟨out,?_,vm⟩,fun none => ?_⟩
  · obtain rfl := Option.some.inj (asked.symm.trans here)
    exact served
  · rw [asked] at none
    cases none

theorem Answers.refused {call : Call} (accessed : Accessed k k₁) (asked : request k call = some .refused) :
    Answers k call (-1) k₁ := by
  refine Answers.of .refused .none asked ?_ accessed.vm
  rw [service_accessed accessed]
  rfl

theorem openPath_vm (settled : Settled strict loose marks origin k) (bound : ∀ n, loose n → ∃ s, (s,n) ∈ marks)
    {path : List Byte} {omode : Nat} (ok : openPath k path omode = .ok (r,k')) : k'.vm = k.vm := by
  have guard := @tended_guard strict loose k.moorings k.fs (settled.bound bound)
  obtain ⟨room,here⟩ := settled.moorage
  rcases (guard.openPath settled.safe.moor room here path omode).elim ok with ⟨fs,same,_⟩ | ⟨fs,ip,m,same,_⟩
  · exact congrArg (fun r => r.2.vm) same
  · rcases openFile_first (k := { k with fs := fs }) settled.safe.table ip omode with ⟨_,failed⟩ | ⟨_,_,_,_,opened⟩
    · rw [failed] at same
      exact congrArg (fun r => r.2.vm) same
    · rw [opened] at same
      exact congrArg (fun r => r.2.vm) same

theorem sysOpen_served (settled : Settled strict loose marks origin k) (bound : ∀ n, loose n → ∃ s, (s,n) ∈ marks)
    (ok : sysOpen k = .ok (r,k')) (enough : k'.fs.exhausted = false) : Answers k .open_ r k' := by
  unfold sysOpen at ok
  split at ok
  · cases ok
  · rename_i k₁ fetched
    obtain ⟨path,first,_⟩ := argstr_text fetched
    obtain ⟨rfl,rfl⟩ := Prod.mk.inj (Except.ok.inj ok)
    refine Answers.refused first ?_
    unfold request
    rw [← path]
    rfl
  · rename_i addr len k₁ fetched
    obtain ⟨path,first,string⟩ := argstr_text fetched
    split at ok
    · cases ok
    · rename_i k₂ fetched
      obtain ⟨omode,second⟩ := argint_word fetched
      obtain ⟨rfl,rfl⟩ := Prod.mk.inj (Except.ok.inj ok)
      refine Answers.refused (first.trans second) ?_
      rw [word_accessed first] at omode
      unfold request
      rw [← path,← omode]
      rfl
    · rename_i omode k₂ fetched
      obtain ⟨value,second⟩ := argint_word fetched
      have accessed := first.trans second
      rw [word_accessed first] at value
      have same : userString k₂ addr len = userString k addr len := by
        unfold userString
        rw [accessed.userMem]
      rw [same] at ok
      have served := openPath_served (settled.accessed accessed) bound (string _ rfl) ok enough
      rw [service_accessed accessed] at served
      refine Answers.of (.open_ (userString k addr len) omode) .none ?_ ?_ ?_
      · unfold request
        rw [← path,← value]
        rfl
      · unfold Service.serve
        dsimp only
        rw [served]
        rfl
      · exact (openPath_vm (settled.accessed accessed) bound ok).trans accessed.vm

theorem sysMknod_served (settled : Settled strict loose marks origin k) (bound : ∀ n, loose n → ∃ s, (s,n) ∈ marks)
    (ok : sysMknod k = .ok (r,k')) (enough : k'.fs.exhausted = false) : Answers k .mknod r k' := by
  unfold sysMknod at ok
  split at ok
  · cases ok
  · rename_i k₁ fetched
    obtain ⟨path,first,_⟩ := argstr_text fetched
    obtain ⟨rfl,rfl⟩ := Prod.mk.inj (Except.ok.inj ok)
    refine Answers.refused first ?_
    unfold request
    rw [← path]
    rfl
  · rename_i addr len k₁ fetched
    obtain ⟨path,first,string⟩ := argstr_text fetched
    split at ok
    · cases ok
    · rename_i k₂ fetched
      obtain ⟨major,second⟩ := argint_word fetched
      obtain ⟨rfl,rfl⟩ := Prod.mk.inj (Except.ok.inj ok)
      refine Answers.refused (first.trans second) ?_
      rw [word_accessed first] at major
      unfold request
      rw [← path,← major]
      rfl
    · rename_i major k₂ fetched
      obtain ⟨first_number,second⟩ := argint_word fetched
      rw [word_accessed first] at first_number
      split at ok
      · cases ok
      · rename_i k₃ fetched
        obtain ⟨minor,third⟩ := argint_word fetched
        obtain ⟨rfl,rfl⟩ := Prod.mk.inj (Except.ok.inj ok)
        refine Answers.refused ((first.trans second).trans third) ?_
        rw [word_accessed (first.trans second)] at minor
        unfold request
        rw [← path,← first_number,← minor]
        rfl
      · rename_i minor k₃ fetched
        obtain ⟨second_number,third⟩ := argint_word fetched
        rw [word_accessed (first.trans second)] at second_number
        have accessed := (first.trans second).trans third
        have same : userString k₃ addr len = userString k addr len := by
          unfold userString
          rw [accessed.userMem]
        rw [same] at ok
        have served := mknodPath_served (settled.accessed accessed) bound (string _ rfl) ok enough
        rw [service_accessed accessed] at served
        refine Answers.of (.mknod (userString k addr len) major minor) .none ?_ ?_ ?_
        · unfold request
          rw [← path,← first_number,← second_number]
          rfl
        · unfold Service.serve
          dsimp only
          rw [served]
          rfl
        · have guard := @tended_guard strict loose k₃.moorings k₃.fs ((settled.accessed accessed).bound bound)
          obtain ⟨room,here⟩ := (settled.accessed accessed).moorage
          obtain ⟨fs,form,_⟩ := (guard.mknodPath (settled.accessed accessed).safe.moor room here _ major minor).elim ok
          exact (congrArg State.vm form).trans accessed.vm

theorem sysRead_served (settled : Settled strict loose marks origin k)
    (ok : sysRead k = .ok (r,k')) (enough : k'.fs.exhausted = false) : Answers k .read r k' := by
  unfold sysRead at ok
  split at ok
  · cases ok
  · rename_i k₁ fetched
    obtain ⟨accessed,missing,_⟩ := argbuf_transfer fetched fun fd n _ => .read fd n
    obtain ⟨rfl,rfl⟩ := Prod.mk.inj (Except.ok.inj ok)
    rcases missing rfl with refused | ⟨fd,n,_,asked,absent⟩
    · exact Answers.refused accessed (congrArg some refused)
    · refine Answers.of (.read fd n) (.bytes []) (congrArg some asked) ?_ accessed.vm
      unfold Service.serve
      dsimp only
      unfold Service.read
      rw [absent,service_accessed accessed]
  · rename_i f p n k₁ fetched
    obtain ⟨accessed,_,found⟩ := argbuf_transfer fetched fun fd n _ => .read fd n
    obtain ⟨width,place,fd,named,asked⟩ := found f p n rfl
    rw [← accessed.proc] at named
    obtain ⟨result,state,vm⟩ := fileread_served (settled.accessed accessed) named width (Except.ok.inj ok) enough
    rw [service_accessed accessed] at result state vm
    refine Answers.of (.read fd n) (.bytes ((service k).read fd n).2.1) (congrArg some asked) ?_ (vm.trans ?_)
    · unfold Service.serve
      dsimp only
      rw [result,state]
    · rw [span_word place]
      exact storeUser_vm accessed.vm accessed.proc p fun _ _ => rfl

theorem sysWrite_served (settled : Settled strict loose marks origin k)
    (types : ∀ i, (nodes k.fs i).type = 0 ∨ (nodes k.fs i).type = tDir ∨ (nodes k.fs i).type = tFile ∨ (nodes k.fs i).type = tDev)
    (ok : sysWrite k = .ok (r,k')) (enough : k'.fs.exhausted = false) : Answers k .write r k' := by
  unfold sysWrite at ok
  split at ok
  · cases ok
  · rename_i k₁ fetched
    obtain ⟨accessed,missing,_⟩ := argbuf_transfer fetched fun fd n p => .write fd (taken (userMem k p) n)
    obtain ⟨rfl,rfl⟩ := Prod.mk.inj (Except.ok.inj ok)
    rcases missing rfl with refused | ⟨fd,n,p,asked,absent⟩
    · exact Answers.refused accessed (congrArg some refused)
    · refine Answers.of (.write fd (taken (userMem k p) n)) .none (congrArg some asked) ?_ accessed.vm
      unfold Service.serve
      dsimp only
      unfold Service.write
      rw [absent,service_accessed accessed]
  · rename_i f p n k₁ fetched
    obtain ⟨accessed,_,found⟩ := argbuf_transfer fetched fun fd n p => .write fd (taken (userMem k p) n)
    obtain ⟨_,_,fd,named,asked⟩ := found f p n rfl
    rw [← accessed.proc] at named
    rw [← accessed.fs] at types
    obtain ⟨served,vm⟩ := filewrite_served (settled.accessed accessed) named types ok enough
    rw [service_accessed accessed,accessed.userMem] at served
    refine Answers.of (.write fd (taken (userMem k p) n)) .none (congrArg some asked) ?_ (vm.trans accessed.vm)
    unfold Service.serve
    dsimp only
    rw [served]

theorem sysClose_served (settled : Settled strict loose marks origin k) (bound : ∀ n, loose n → ∃ s, (s,n) ∈ marks)
    (ok : sysClose k = .ok (r,k')) : Answers k .close r k' := by
  unfold sysClose at ok
  split at ok
  · cases ok
  · rename_i k₁ fetched
    obtain ⟨accessed,missing,_⟩ := argfd_named fetched
    obtain ⟨rfl,rfl⟩ := Prod.mk.inj (Except.ok.inj ok)
    rcases missing rfl with none | ⟨v,value,absent⟩
    · refine Answers.refused accessed ?_
      unfold request
      rw [none]
      rfl
    · refine Answers.of (.close v) .none ?_ ?_ accessed.vm
      · unfold request
        rw [value]
        rfl
      · unfold Service.serve
        dsimp only
        unfold Service.close
        rw [absent,service_accessed accessed]
  · rename_i fd f k₁ fetched
    obtain ⟨accessed,_,found⟩ := argfd_named fetched
    obtain ⟨value,named⟩ := found fd f rfl
    rw [← accessed.proc] at named
    obtain ⟨rfl,rfl⟩ := Prod.mk.inj (Except.ok.inj ok)
    have served := close_served (settled.accessed accessed) bound named
    rw [service_accessed accessed] at served
    refine Answers.of (.close fd) .none ?_ ?_ ?_
    · unfold request
      rw [value]
      rfl
    · unfold Service.serve
      dsimp only
      rw [served]
    · have one := ((settled.accessed accessed).safe.table.taken fd f named).1
      have closed := fileclose_last
        (k := { k₁ with proc := { k₁.proc with ofile := Function.update k₁.proc.ofile fd none } }) one
      rw [closed]
      refine Eq.trans ?_ accessed.vm
      split
      · rfl
      · rfl

theorem sysFstat_served (settled : Settled strict loose marks origin k)
    (ok : sysFstat k = .ok (r,k')) : Answers k .fstat r k' := by
  unfold sysFstat at ok
  split at ok
  · cases ok
  · rename_i k₁ fetched
    obtain ⟨accessed,missing,_⟩ := argfd_named fetched
    obtain ⟨rfl,rfl⟩ := Prod.mk.inj (Except.ok.inj ok)
    rcases missing rfl with none | ⟨v,value,absent⟩
    · refine Answers.refused accessed ?_
      unfold request
      rw [none]
      rfl
    · cases place : span k 1 statSize with
      | none =>
        refine Answers.refused accessed ?_
        unfold request
        rw [value,place]
        rfl
      | some p =>
        refine Answers.of (.fstat v) .none ?_ ?_ accessed.vm
        · unfold request
          rw [value,place]
          rfl
        · unfold Service.serve
          dsimp only
          unfold Service.fstat
          rw [absent,service_accessed accessed]
          rfl
  · rename_i fd f k₁ fetched
    obtain ⟨first,_,found⟩ := argfd_named fetched
    obtain ⟨value,named⟩ := found fd f rfl
    have same : span k₁ 1 statSize = span k 1 statSize := by
      unfold span
      rw [word_accessed first,first.proc]
    split at ok
    · cases ok
    · rename_i k₂ fetched
      obtain ⟨place,second⟩ := argptr_span (by decide) fetched
      obtain ⟨rfl,rfl⟩ := Prod.mk.inj (Except.ok.inj ok)
      rw [same] at place
      refine Answers.refused (first.trans second) ?_
      unfold request
      rw [value,← place]
      rfl
    · rename_i p k₂ fetched
      obtain ⟨place,second⟩ := argptr_span (by decide) fetched
      rw [same] at place
      have accessed := first.trans second
      rw [← accessed.proc] at named
      have told := filestat_served (settled.accessed accessed) named
      have still := service_locked (settled.accessed accessed) named
      rw [service_accessed accessed] at told still
      have lookup := service_lookup (k := k₂) named
      rw [service_accessed accessed] at lookup
      rw [told] at ok
      unfold Service.fstat at ok
      rw [lookup] at ok
      dsimp only at ok
      have memory : userMem { k₂ with fs := ilock k₂.fs (k₂.file f).ip } p = userMem k p :=
        (userMem_congr rfl rfl p).trans (accessed.userMem p)
      obtain ⟨rfl,rfl⟩ := Prod.mk.inj (Except.ok.inj ok)
      refine Answers.of (.fstat fd) (((service k).fstat fd).2.map .stat |>.getD .none) ?_ ?_ ?_
      · unfold request
        rw [value,← place]
        rfl
      · rw [service_stored,still]
        unfold Service.serve
        dsimp only
        unfold Service.fstat
        rw [lookup]
      · unfold Service.fstat
        rw [lookup,span_word place.symm,memory]
        exact @storeUser_vm statSize k { k₂ with fs := ilock k₂.fs (k₂.file f).ip } _ _ accessed.vm accessed.proc p
          fun _ _ => rfl

theorem sysExec_served (settled : Settled strict loose marks origin k) (bound : ∀ n, loose n → ∃ s, (s,n) ∈ marks)
    (ok : sysExec data k = .ok (r,k')) (enough : k'.fs.exhausted = false) : Answers k .exec r k' := by
  refine ⟨(fun q wrong => by cases wrong),fun _ => ?_⟩
  unfold sysExec at ok
  split at ok
  · cases ok
  · rename_i k₁ fetched
    obtain ⟨rfl,rfl⟩ := Prod.mk.inj (Except.ok.inj ok)
    exact service_accessed (argstr_text fetched).2.1
  · rename_i path k₁ fetched
    have first := (argstr_text fetched).2.1
    split at ok
    · cases ok
    · rename_i k₂ fetched
      obtain ⟨rfl,rfl⟩ := Prod.mk.inj (Except.ok.inj ok)
      exact service_accessed (first.trans (argint_word fetched).2)
    · rename_i uargv k₂ fetched
      have second := first.trans (argint_word fetched).2
      split at ok
      · cases ok
      · rename_i k₃ fetched
        have third := second.trans ((argvLoop_accessed k₂ uargv maxarg 0).elim fetched).1
        obtain ⟨rfl,rfl⟩ := Prod.mk.inj (Except.ok.inj ok)
        exact service_accessed third
      · rename_i argv k₃ fetched
        have third := second.trans ((argvLoop_accessed k₂ uargv maxarg 0).elim fetched).1
        split at ok
        · cases ok
        · rename_i k₄ printed
          have same₄ := (printString_soft k₃ path.1 4294967296 0).elim printed
          split at ok
          · cases ok
          · rename_i k₅ printed
            have same₅ := (printString_soft k₄ ((argv.head?.map Prod.fst).getD 0) 4294967296 0).elim printed
            have now := ((settled.accessed third).touched same₄).touched same₅
            rw [exec_served now bound ok enough,← service_accessed third,same₅,same₄]
            rfl

/-- Every call that ends does what the service says, if the disk has blocks enough. -/
theorem dispatch_served (settled : Settled strict loose marks origin k) (bound : ∀ n, loose n → ∃ s, (s,n) ∈ marks)
    (types : ∀ i, (nodes k.fs i).type = 0 ∨ (nodes k.fs i).type = tDir ∨ (nodes k.fs i).type = tFile ∨ (nodes k.fs i).type = tDev)
    {call : Call} (ok : dispatch data k call = .ok (r,k')) (enough : k'.fs.exhausted = false) : Answers k call r k' := by
  cases call with
  | open_ => exact sysOpen_served settled bound ok enough
  | mknod => exact sysMknod_served settled bound ok enough
  | read => exact sysRead_served settled ok enough
  | write => exact sysWrite_served settled types ok enough
  | close => exact sysClose_served settled bound ok
  | fstat => exact sysFstat_served settled ok
  | exec => exact sysExec_served settled bound ok enough

end calls

end Lxos.Files
