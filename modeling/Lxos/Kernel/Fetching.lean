import Lxos.Kernel.Arguments

/-! The memory of a resident process is there, so that its arguments can be fetched, if only
to see that they are not in it. -/
namespace Lxos.Kernel
open Lxos.Bytes Lxos.Fs Lxos.Outcome

section fetch
variable {k k₁ : State} {addr n : Nat} {size : Int}

theorem Resident.accessed (resident : Resident k) (accessed : Accessed k k₁) : Resident k₁ := by
  refine ⟨?_,?_⟩
  all_goals rw [accessed.proc]
  · exact resident.limit
  · rw [accessed.vm]
    exact resident.present

theorem touch_present (resident : Resident k) (below : addr + n ≤ k.proc.sz) :
    touch k addr n = .ok { k with touched := (addr,n) :: k.touched } := by
  unfold touch
  refine if_pos (List.all_eq_true.mpr fun i member => resident.present (addr + i) ?_)
  have := List.mem_range.mp member
  omega

theorem argint_total (resident : Resident k) (n : Nat) : ∃ o k₁, argint k n = .ok (o,k₁) := by
  have limit := resident.limit
  unfold argint getint
  generalize u32 (k.proc.esp + 4 + 4 * n) = addr
  split
  · exact ⟨_,_,rfl⟩
  · rename_i inside
    rw [u32_of_lt (by omega)] at inside
    rw [touch_present resident (by omega)]
    exact ⟨_,_,rfl⟩

theorem getstrLoop_total (resident : Resident k) (addr fuel i : Nat) : ∃ o k₁, getstrLoop k addr fuel i = .ok (o,k₁) := by
  induction fuel generalizing k i with
  | zero => exact ⟨_,_,rfl⟩
  | succ fuel ih =>
    unfold getstrLoop
    split
    · rename_i inside
      have resident1 : Resident { k with touched := (addr + i,1) :: k.touched } := ⟨resident.limit,resident.present⟩
      rw [touch_present resident (by omega)]
      dsimp only
      split
      · exact ⟨_,_,rfl⟩
      · exact ih resident1 (i + 1)
    · exact ⟨_,_,rfl⟩

theorem argstr_total (resident : Resident k) (n : Nat) : ∃ o k₁, argstr k n = .ok (o,k₁) := by
  obtain ⟨o,k1,ok⟩ := argint_total resident n
  have resident1 := resident.accessed ((argint_accessed k n).elim ok).1
  unfold argstr
  rw [ok]
  cases o with
  | none => exact ⟨_,_,rfl⟩
  | some addr =>
    obtain ⟨o,k2,found⟩ : ∃ o k2, getstr k1 addr = .ok (o,k2) := by
      unfold getstr
      split
      · exact ⟨_,_,rfl⟩
      · exact getstrLoop_total resident1 addr _ 0
    dsimp only
    rw [found]
    cases o with
    | none => exact ⟨_,_,rfl⟩
    | some len => exact ⟨_,_,rfl⟩

theorem argptr_total (resident : Resident k) (n : Nat) (int : size < 2147483648) : ∃ o k₁, argptr k n size = .ok (o,k₁) := by
  obtain ⟨o,k1,ok⟩ := argint_total resident n
  have resident1 : Resident k1 := resident.accessed ((argint_accessed k n).elim ok).1
  have limit := resident1.limit
  unfold argptr
  rw [ok]
  cases o with
  | none => exact ⟨_,_,rfl⟩
  | some i =>
    dsimp only
    split
    · exact ⟨_,_,rfl⟩
    · rename_i inside
      rw [u32_of_lt (by omega)] at inside
      rw [touch_present resident1 (by omega)]
      exact ⟨_,_,rfl⟩

theorem argfd_total (resident : Resident k) (n : Nat) : ∃ o k₁, argfd k n = .ok (o,k₁) := by
  obtain ⟨o,k1,ok⟩ := argint_total resident n
  unfold argfd
  rw [ok]
  cases o with
  | none => exact ⟨_,_,rfl⟩
  | some fd =>
    dsimp only
    split
    · split
      · exact ⟨_,_,rfl⟩
      · exact ⟨_,_,rfl⟩
    · exact ⟨_,_,rfl⟩

theorem argbuf_total (resident : Resident k) : ∃ o k₁, argbuf k = .ok (o,k₁) := by
  obtain ⟨o,k1,ok⟩ := argfd_total resident 0
  have resident1 := resident.accessed ((argfd_accessed k 0).elim ok).1
  unfold argbuf
  rw [ok]
  cases o with
  | none => exact ⟨_,_,rfl⟩
  | some found =>
    obtain ⟨o,k2,ok⟩ := argint_total resident1 2
    obtain ⟨accessed,width⟩ := (argint_accessed k1 2).elim ok
    have resident2 := resident1.accessed accessed
    dsimp only
    rw [ok]
    cases o with
    | none => exact ⟨_,_,rfl⟩
    | some n =>
      obtain ⟨o,k3,ok⟩ := argptr_total resident2 1 (int32_lt n (width n rfl))
      dsimp only
      rw [ok]
      cases o with
      | none => exact ⟨_,_,rfl⟩
      | some p => exact ⟨_,_,rfl⟩

end fetch

end Lxos.Kernel
