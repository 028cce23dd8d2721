import Lxos.Fs.Entries
import Lxos.Fs.Exhaustion

/-! The return value of `dirlink`. It is 0 whenever the name was not there before, also
where `writei` refused to let the directory grow. -/
namespace Lxos.Fs
open Lxos.Bytes Lxos.Places

section balloc
variable {dev : Nat} {ip : Slot} {st st' : FsState} {es : List Event}

end balloc

section dirlink
variable {dev inum : Nat} {dp : Slot} {st st' : FsState} {name : Buffer}

theorem Answers.unique {found found' : Option (Nat × Nat)} (answers : Answers st dp name found)
    (answers' : Answers st dp name found') : found.map Prod.fst = found'.map Prod.fst := by
  obtain ⟨r,ok,value⟩ := answers
  obtain ⟨r',ok',value'⟩ := answers'
  obtain rfl := Except.ok.inj (ok.symm.trans ok')
  have same := congrArg (Option.map Prod.fst) (value.symm.trans value')
  simpa only [Option.map_map,Function.comp_def] using same

end dirlink

end Lxos.Fs
