import Lxos.Files.Lasting
import Lxos.Kernel.Coherence

/-! The machine is switched off between two calls and boots again. All that the calls have
done is on the disk then: only the open files are gone. -/
namespace Lxos.Files
open Lxos.Bytes Lxos.Fs Lxos.Kernel Lxos.Utils Lxos.Outcome Lxos.Places Lxos.Simulation

section restart
variable {strict tight : Prop} {st : FsState} {m : Vm} {kstack pgdir : Page} {disk : Nat → Nat → Block} {stack : Buffer} {s : Slot}

end restart

section reboot
variable {files : List Input} {strict : Prop} {origin : FsState} {all : List Page} {data size : Nat} {first kpgdir kpgdir' : Page}
  {init stack : Buffer} {m : Vm} {k k' k₀ : State} {log : List (Turn × (Int × Output))}

/-- What holds of every kernel that the machine boots. -/
structure Standing (files : List Input) (k : State) : Prop where
  neat : Safe Neat k
  serving : ∃ all kpgdir origin, Serving all kpgdir (Titles files) (· = rootino) [((0 : Slot),rootino)] origin k

end reboot

end Lxos.Files
