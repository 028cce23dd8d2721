import Lxos.Kernel.Calls
import Lxos.Library.Outcome

/-! The arguments of a system call. Fetching them changes nothing, and reads user
memory below the size of the process only. -/
namespace Lxos.Kernel
open Lxos.Bytes Lxos.Fs Lxos.Outcome

/-- User memory ends below the kernel, and every page of it is present. -/
structure Resident (k : State) : Prop where
  limit : k.proc.sz ≤ 2147483648
  present : ∀ va < k.proc.sz, (translate k.vm k.proc.pgdir va).isSome

/-- A resident process is not the cause of a page fault. -/
def Permitted (k : State) (e : Fault) : Prop := e ≠ .noSlot ∧ (Resident k → e ≠ .pageFault)

/-- User memory was read, below the size of the process. -/
structure Accessed (k k' : State) : Prop where
  same : k' = { k with touched := k'.touched }
  inside : k.proc.sz ≤ 2147483648 → ∀ r ∈ k'.touched, r ∈ k.touched ∨ r.1 + r.2 ≤ k.proc.sz

/-- A string of `len` bytes before its zero. -/
structure StringAt (k : State) (addr len : Nat) : Prop where
  inside : addr + len < k.proc.sz
  zero : userByte k (addr + len) = 0

section accessed
variable {k k' k'' : State} {addr len n : Nat}

theorem Accessed.refl (k : State) : Accessed k k := ⟨rfl,fun _ _ => Or.inl⟩

theorem Accessed.trans (first : Accessed k k') (second : Accessed k' k'') : Accessed k k'' where
  same := by
    rw [second.same,first.same]
  inside := by
    have proc : k'.proc = k.proc := by rw [first.same]
    intro limit r member
    rcases second.inside (by rw [proc]; exact limit) r member with before | below
    · exact first.inside limit r before
    · rw [proc] at below
      exact Or.inr below

theorem Accessed.fs (accessed : Accessed k k') : k'.fs = k.fs := by rw [accessed.same]

theorem Accessed.file (accessed : Accessed k k') : k'.file = k.file := by rw [accessed.same]

theorem Accessed.vm (accessed : Accessed k k') : k'.vm = k.vm := by rw [accessed.same]

theorem Accessed.proc (accessed : Accessed k k') : k'.proc = k.proc := by rw [accessed.same]

theorem Accessed.userByte (accessed : Accessed k k') (va : Nat) : userByte k' va = userByte k va := by
  rw [Kernel.userByte,Kernel.userByte,accessed.vm,accessed.proc]

theorem Accessed.userMem (accessed : Accessed k k') (va : Nat) : userMem k' va = userMem k va :=
  funext fun _ => accessed.userByte _

theorem Accessed.permitted (accessed : Accessed k k') {e : Fault} (permitted : Permitted k' e) : Permitted k e := by
  refine ⟨permitted.1,fun resident => permitted.2 ⟨?_,?_⟩⟩
  · rw [accessed.proc]
    exact resident.limit
  · rw [accessed.proc,accessed.vm]
    exact resident.present

theorem Accessed.string (accessed : Accessed k k') (string : StringAt k' addr len) : StringAt k addr len := by
  obtain ⟨inside,zero⟩ := string
  rw [accessed.proc] at inside
  rw [accessed.userByte] at zero
  exact ⟨inside,zero⟩

theorem Accessed.carry (accessed : Accessed k k') (string : StringAt k addr len) : StringAt k' addr len := by
  obtain ⟨inside,zero⟩ := string
  rw [← accessed.proc] at inside
  rw [← accessed.userByte] at zero
  exact ⟨inside,zero⟩

/-- What follows an access that may fail. -/
theorem Accessed.meets {α : Type} {r : Except Fault α} {post : α → Prop} (accessed : Accessed k k')
    (meets : Meets (Permitted k') r post) : Meets (Permitted k) r post := by
  cases r with
  | ok a => exact meets
  | error e => exact accessed.permitted meets

theorem touch_accessed (k : State) (addr n : Nat) (bound : k.proc.sz ≤ 2147483648 → addr + n ≤ k.proc.sz) :
    Meets (Permitted k) (touch k addr n) (Accessed k) := by
  unfold touch
  split
  · refine ⟨rfl,fun limit r member => ?_⟩
    rcases List.mem_cons.mp member with rfl | old
    · exact Or.inr (bound limit)
    · exact Or.inl old
  · rename_i absent
    refine ⟨by decide,fun resident => absurd ?_ absent⟩
    refine List.all_eq_true.mpr fun i member => resident.present (addr + i) ?_
    have below := List.mem_range.mp member
    have := bound resident.limit
    omega

theorem getint_accessed (k : State) (addr : Nat) : Meets (Permitted k) (getint k addr) (fun r => Accessed k r.2 ∧
    ∀ v, r.1 = some v → v = (le32 (userMem k addr) 0).toNat ∧ (k.proc.sz ≤ 2147483648 → addr + 4 ≤ k.proc.sz)) := by
  unfold getint
  split
  · exact ⟨Accessed.refl k,fun v absurd => nomatch absurd⟩
  · rename_i inside
    have bound (limit : k.proc.sz ≤ 2147483648) : addr + 4 ≤ k.proc.sz := by
      rw [u32_of_lt (by omega)] at inside
      omega
    rcases (touch_accessed _ _ _ bound).cases with ⟨e,fail,permitted⟩ | ⟨k1,ok,accessed⟩
    · rw [fail]
      exact permitted
    · rw [ok]
      refine ⟨accessed,fun v value => ⟨?_,bound⟩⟩
      rw [← accessed.userMem]
      exact (Option.some.inj value).symm

theorem getstrLoop_accessed (k : State) (addr fuel i : Nat) :
    Meets (Permitted k) (getstrLoop k addr fuel i) (fun r => Accessed k r.2 ∧
      ∀ len, r.1 = some len → StringAt k addr len) := by
  induction fuel generalizing k i with
  | zero => exact ⟨Accessed.refl k,fun len absurd => nomatch absurd⟩
  | succ fuel ih =>
    unfold getstrLoop
    split
    · rename_i inside
      rcases (touch_accessed k (addr + i) 1 (fun _ => by omega)).cases with
        ⟨e,fail,permitted⟩ | ⟨k1,ok,accessed⟩
      · rw [fail]
        exact permitted
      · rw [ok]
        dsimp only
        split
        · rename_i zero
          rw [accessed.userByte] at zero
          refine ⟨accessed,fun len found => ?_⟩
          rw [← Option.some.inj found]
          exact ⟨inside,zero⟩
        · refine accessed.meets ((ih k1 (i+1)).mono fun r later => ⟨accessed.trans later.1,fun len found => ?_⟩)
          exact accessed.string (later.2 len found)
    · exact ⟨Accessed.refl k,fun len absurd => nomatch absurd⟩

theorem getstr_accessed (k : State) (addr : Nat) : Meets (Permitted k) (getstr k addr) (fun r => Accessed k r.2 ∧
    ∀ len, r.1 = some len → StringAt k addr len) := by
  unfold getstr
  split
  · exact ⟨Accessed.refl k,fun len absurd => nomatch absurd⟩
  · exact getstrLoop_accessed k addr _ 0

theorem argint_accessed (k : State) (n : Nat) : Meets (Permitted k) (argint k n) (fun r => Accessed k r.2 ∧
    ∀ v, r.1 = some v → v < 4294967296) := by
  refine (getint_accessed k _).mono fun r access => ⟨access.1,fun v value => ?_⟩
  rw [(access.2 v value).1]
  omega

theorem argptr_accessed (k : State) (n : Nat) {size : Int} (int : size < 2147483648) :
    Meets (Permitted k) (argptr k n size) (fun r => Accessed k r.2) := by
  unfold argptr
  rcases (argint_accessed k n).cases with ⟨e,fail,permitted⟩ | ⟨⟨_ | p,k1⟩,ok,first,_⟩
  · rw [fail]
    exact permitted
  · rw [ok]
    exact first
  · rw [ok]
    dsimp only
    split
    · exact first
    · rename_i inside
      have bound (limit : k1.proc.sz ≤ 2147483648) : p + size.toNat ≤ k1.proc.sz := by
        rw [u32_of_lt (by omega)] at inside
        omega
      rcases (touch_accessed _ _ _ bound).cases with ⟨e,fail,permitted⟩ | ⟨k2,ok,second⟩
      · rw [fail]
        exact first.permitted permitted
      · rw [ok]
        exact first.trans second

theorem argstr_accessed (k : State) (n : Nat) : Meets (Permitted k) (argstr k n) (fun r => Accessed k r.2 ∧
    ∀ s, r.1 = some s → StringAt k s.1 s.2) := by
  unfold argstr
  rcases (argint_accessed k n).cases with ⟨e,fail,permitted⟩ | ⟨⟨_ | addr,k1⟩,ok,first,_⟩
  · rw [fail]
    exact permitted
  · rw [ok]
    exact ⟨first,fun s absurd => nomatch absurd⟩
  · rw [ok]
    rcases (getstr_accessed k1 addr).cases with ⟨e,fail,permitted⟩ | ⟨⟨_ | len,k2⟩,ok,second,string⟩
    · dsimp only
      rw [fail]
      exact first.permitted permitted
    · dsimp only
      rw [ok]
      exact ⟨first.trans second,fun s absurd => nomatch absurd⟩
    · dsimp only
      rw [ok]
      refine ⟨first.trans second,fun s found => ?_⟩
      rw [← Option.some.inj found]
      exact first.string (string len rfl)

theorem argfd_accessed (k : State) (n : Nat) : Meets (Permitted k) (argfd k n) (fun r => Accessed k r.2 ∧
    ∀ fd f, r.1 = some (fd,f) → k.proc.ofile fd = some f) := by
  unfold argfd
  rcases (argint_accessed k n).cases with ⟨e,fail,permitted⟩ | ⟨⟨_ | fd,k1⟩,ok,first,_⟩
  · rw [fail]
    exact permitted
  · rw [ok]
    exact ⟨first,fun fd f absurd => nomatch absurd⟩
  · rw [ok]
    dsimp only
    split
    · rename_i below
      split
      · exact ⟨first,fun fd f absurd => nomatch absurd⟩
      · rename_i f found
        refine ⟨first,fun fd' f' same => ?_⟩
        obtain ⟨rfl,rfl⟩ := Prod.mk.inj (Option.some.inj same)
        rw [← first.proc]
        exact found
    · exact ⟨first,fun fd f absurd => nomatch absurd⟩

theorem int32_lt (n : Nat) (h : n < 4294967296) : int32 n < 2147483648 := by
  unfold int32
  split <;> omega

theorem argbuf_accessed (k : State) : Meets (Permitted k) (argbuf k) (fun r => Accessed k r.2 ∧
    ∀ f p n, r.1 = some (f,p,n) → n < 4294967296 ∧ ∃ fd, k.proc.ofile fd = some f) := by
  unfold argbuf
  rcases (argfd_accessed k 0).cases with ⟨e,fail,permitted⟩ | ⟨⟨_ | ⟨fd,f⟩,k1⟩,ok,first,named⟩
  · rw [fail]
    exact permitted
  · rw [ok]
    exact ⟨first,fun f p n absurd => nomatch absurd⟩
  · rw [ok]
    rcases (argint_accessed k1 2).cases with ⟨e,fail,permitted⟩ | ⟨⟨_ | n,k2⟩,ok,second,width⟩
    · dsimp only
      rw [fail]
      exact first.permitted permitted
    · dsimp only
      rw [ok]
      exact ⟨first.trans second,fun f p n absurd => nomatch absurd⟩
    · have two := first.trans second
      dsimp only
      rw [ok]
      dsimp only
      rcases (argptr_accessed k2 1 (int32_lt n (width n rfl))).cases with
        ⟨e,fail,permitted⟩ | ⟨⟨_ | p,k3⟩,ok,third⟩
      · rw [fail]
        exact two.permitted permitted
      · rw [ok]
        exact ⟨two.trans third,fun f p n absurd => nomatch absurd⟩
      · rw [ok]
        refine ⟨two.trans third,fun f' p' n' same => ?_⟩
        obtain ⟨rfl,rest⟩ := Prod.mk.inj (Option.some.inj same)
        obtain ⟨rfl,rfl⟩ := Prod.mk.inj rest
        exact ⟨width n rfl,fd,named fd f rfl⟩

/-- The arguments of `exec` are strings; with none of them, a zero word lies in user memory. -/
theorem argvLoop_accessed (k : State) (uargv fuel i : Nat) :
    Meets (Permitted k) (argvLoop uargv fuel k i) (fun r => Accessed k r.2 ∧ ∀ argv, r.1 = some argv →
      (∀ s ∈ argv, StringAt k s.1 s.2) ∧ (argv = [] → ∃ a, le32 (userMem k a) 0 = 0 ∧
        (k.proc.sz ≤ 2147483648 → a + 4 ≤ k.proc.sz))) := by
  induction fuel generalizing k i with
  | zero => exact ⟨Accessed.refl k,fun argv absurd => nomatch absurd⟩
  | succ fuel ih =>
    unfold argvLoop
    rcases (getint_accessed k (u32 (uargv + 4*i))).cases with ⟨e,fail,permitted⟩ | ⟨⟨_ | uarg,k1⟩,ok,first,word⟩
    · rw [fail]
      exact permitted
    · rw [ok]
      exact ⟨first,fun argv absurd => nomatch absurd⟩
    · obtain ⟨value,below⟩ := word uarg rfl
      rw [ok]
      dsimp only
      split
      · rename_i zero
        refine ⟨first,fun argv found => ?_⟩
        rw [← Option.some.inj found]
        refine ⟨(fun s absurd => nomatch absurd),fun _ => ⟨_,?_,below⟩⟩
        exact BitVec.eq_of_toNat_eq (value.symm.trans zero)
      · rcases (getstr_accessed k1 uarg).cases with ⟨e,fail,permitted⟩ | ⟨⟨_ | len,k2⟩,ok,second,string⟩
        · rw [fail]
          exact first.permitted permitted
        · rw [ok]
          exact ⟨first.trans second,fun argv absurd => nomatch absurd⟩
        · have two := first.trans second
          rw [ok]
          dsimp only
          rcases (ih k2 (i+1)).cases with ⟨e,fail,permitted⟩ | ⟨⟨_ | argv,k3⟩,ok,third,rest⟩
          · rw [fail]
            exact two.permitted permitted
          · rw [ok]
            exact ⟨two.trans third,fun argv absurd => nomatch absurd⟩
          · rw [ok]
            refine ⟨two.trans third,fun argv' same => ?_⟩
            rw [← Option.some.inj same]
            refine ⟨fun s member => ?_,fun empty => nomatch empty⟩
            rcases List.mem_cons.mp member with rfl | later
            · exact first.string (string len rfl)
            · exact two.string ((rest argv rfl).1 s later)

/-- Printing a string reads no further than a zero that is known. -/
theorem printString_accessed (k : State) (addr fuel : Nat) {i stop : Nat} (inside : addr + stop < k.proc.sz)
    (zero : userByte k (addr + stop) = 0) (before : i ≤ stop) :
    Meets (Permitted k) (printString k addr fuel i) (Accessed k) := by
  induction fuel generalizing k i with
  | zero => exact ⟨by decide,fun _ => by decide⟩
  | succ fuel ih =>
    unfold printString
    rcases (touch_accessed k (addr + i) 1 (fun _ => by omega)).cases with
      ⟨e,fail,permitted⟩ | ⟨k1,ok,accessed⟩
    · rw [fail]
      exact permitted
    · rw [ok]
      dsimp only
      split
      · exact accessed
      · rename_i more
        have short : i ≠ stop := by
          rintro rfl
          exact more ((accessed.userByte _).trans zero)
        refine accessed.meets ((ih k1 ?_ ?_ (by omega)).mono fun k2 later => accessed.trans later)
        · rw [accessed.proc]
          exact inside
        · rw [accessed.userByte]
          exact zero

end accessed

end Lxos.Kernel
