import Lxos.Kernel.Stack

/-! With pages enough, an `exec` is not stopped by the allocator. -/
namespace Lxos.Kernel
open Lxos.Bytes Lxos.Fs Lxos.Outcome Lxos.Inventory

section rich
variable {m : Vm} {d : Page} {oldsz newsz n : Nat}

end rich

section contents
variable {m : Vm} {d : Page} {n g va w : Nat} {open_ : Nat → Bool} {b p : Buffer}

/-- An address space without user pages. -/
theorem Contents.empty {m : Vm} (single : (holdings m d).Nodup) (sealing : Sealed m d) (extent : Extent m d 0) :
    Contents m d (pages 0) (fun _ => true) zeros := by
  refine ⟨single,sealing,by decide,fun k low => absurd low (Nat.not_lt_zero k),fun k user _ => ?_,fun a low => ?_,fun _ _ => rfl⟩
  · have whole : k / 1024 * 1024 + k % 1024 = k := by omega
    have nothing := extent (k / 1024) (by omega) (k % 1024) (Nat.mod_lt _ (by decide))
    rw [at_frame_eq (Nat.mod_lt _ (by decide)),whole] at nothing
    split at nothing
    · exact absurd (nothing.mp rfl) (Nat.not_lt_zero k)
    · rename_i absent
      exact Bool.eq_false_iff.mpr absent
  · exact absurd low (Nat.not_lt_zero a)

end contents

section provision
variable {all : List Page} {kpgdir d : Page} {k₀ k : State} {path : Nat × Nat} {entry s : Nat} {b : Buffer}

theorem ustack_length (sp : Nat) (pushed : List Nat) : (ustack sp pushed).length = pushed.length + 4 := by
  simp [ustack]

end provision

end Lxos.Kernel
