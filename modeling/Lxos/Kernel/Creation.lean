import Lxos.Kernel.Calls
import Lxos.Fs.Resolve
import Lxos.Fs.Linking

/-! How `create` fails. It does not ask whether `ialloc` found an inode, nor can `dirlink`
tell it that the parent directory is full. -/
namespace Lxos.Kernel
open Lxos.Bytes Lxos.Fs Lxos.Places

/-- Where a path starts, `k` being the working directory. -/
def origin (k : Nat) (path : List Byte) : Nat := if path.head? = some slash then rootino else k

section create
variable {k : Nat} {cwd : Slot} {path : List Byte} {st : FsState}

end create

end Lxos.Kernel
