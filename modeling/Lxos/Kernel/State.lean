import Lxos.Fs.Directory
import Lxos.Kernel.Memory

/-! The kernel with its one process, and how it reads that process's memory. The
program and its arguments are whatever user memory and the trap frame hold. Every
access made on the user's behalf is recorded. -/
namespace Lxos.Kernel
open Lxos.Bytes Lxos.Fs

abbrev nfile : Nat := 100
abbrev nofile : Nat := 16
abbrev maxarg : Nat := 5

abbrev FileId := Fin nfile

inductive FileType
  | none | pipe | inode
deriving DecidableEq, Repr

/-- `struct file`. -/
structure File where
  type : FileType
  ref : Int
  readable : Bool
  writable : Bool
  ip : Slot
  off : Nat

/-- `struct proc`, with the registers of its trap frame that are used. -/
structure Proc where
  sz : Nat
  pgdir : Page
  kstack : Page
  name : Buffer
  ofile : Fin nofile → Option FileId
  cwd : Slot
  eip : Nat
  esp : Nat

structure State where
  fs : FsState
  file : FileId → File
  vm : Vm
  proc : Proc
  /-- Start and length of each range of user addresses accessed, latest first. -/
  touched : List (Nat × Nat)

namespace State

def setFile (k : State) (f : FileId) (v : File) : State :=
  { k with file := Function.update k.file f v }

end State

/-- Access to `n` bytes from `va`: each has to be present in the current directory. -/
def touch (k : State) (va n : Nat) : Except Fault State :=
  if (List.range n).all (fun i => (translate k.vm k.proc.pgdir (va + i)).isSome) then
    .ok { k with touched := (va,n) :: k.touched }
  else .error .pageFault

/-- Memory as the process sees it. -/
def userByte (k : State) (va : Nat) : Byte :=
  match translate k.vm k.proc.pgdir va with
  | some (page,o) => k.vm.frame page o
  | none => 0

/-- Memory from `va` on. -/
def userMem (k : State) (va : Nat) : Buffer := fun i => userByte k (va + i)

/-- A copy of `n` bytes to user memory, byte `i` of them going to `va + i`. -/
def storeUser (k : State) (va : Nat) (src : Buffer) : Nat → State
  | 0 => k
  | n+1 =>
    let k := storeUser k va src n
    match translate k.vm k.proc.pgdir (va + n) with
    | some (page,o) =>
      { k with vm := k.vm.setFrame page (Function.update (k.vm.frame page) o (src n)) }
    | none => k

theorem storeUser_frame (k : State) (va : Nat) (src : Buffer) (n : Nat) :
    ∃ frame, storeUser k va src n = { k with vm := { k.vm with frame := frame } } := by
  induction n with
  | zero => exact ⟨k.vm.frame,rfl⟩
  | succ n ih =>
    obtain ⟨frame,same⟩ := ih
    unfold storeUser
    rw [same]
    dsimp only
    split
    · exact ⟨_,rfl⟩
    · exact ⟨frame,rfl⟩

def getint (k : State) (addr : Nat) : Except Fault (Option Nat × State) :=
  if addr ≥ k.proc.sz ∨ u32 (addr + 4) > k.proc.sz then .ok (none,k)
  else
    match touch k addr 4 with
    | .error e => .error e
    | .ok k => .ok (some (le32 (userMem k addr) 0).toNat,k)

/-- The loop of `getstr` from `s`: the offset of the terminating zero. -/
def getstrLoop (k : State) (addr : Nat) : Nat → Nat → Except Fault (Option Nat × State)
  | 0, _ => .ok (none,k)
  | fuel+1, i =>
    if addr + i < k.proc.sz then
      match touch k (addr + i) 1 with
      | .error e => .error e
      | .ok k => if userByte k (addr + i) = 0 then .ok (some i,k) else getstrLoop k addr fuel (i+1)
    else .ok (none,k)

/-- The length of the string at `addr`. -/
def getstr (k : State) (addr : Nat) : Except Fault (Option Nat × State) :=
  if addr ≥ k.proc.sz then .ok (none,k) else getstrLoop k addr (k.proc.sz - addr) 0

def argint (k : State) (n : Nat) : Except Fault (Option Nat × State) :=
  getint k (u32 (k.proc.esp + 4 + 4*n))

/-- The pointer that argument `n` is, to `size` bytes; `size` is an `int`. -/
def argptr (k : State) (n : Nat) (size : Int) : Except Fault (Option Nat × State) :=
  match argint k n with
  | .error e => .error e
  | .ok (none,k) => .ok (none,k)
  | .ok (some i,k) =>
    if size < 0 ∨ i ≥ k.proc.sz ∨ u32 (i + size.toNat) > k.proc.sz then .ok (none,k)
    else
      match touch k i size.toNat with
      | .error e => .error e
      | .ok k => .ok (some i,k)

/-- The string that argument `n` points to: its address and length. -/
def argstr (k : State) (n : Nat) : Except Fault (Option (Nat × Nat) × State) :=
  match argint k n with
  | .error e => .error e
  | .ok (none,k) => .ok (none,k)
  | .ok (some addr,k) =>
    match getstr k addr with
    | .error e => .error e
    | .ok (none,k) => .ok (none,k)
    | .ok (some len,k) => .ok (some (addr,len),k)

/-- The bytes of a string in user memory. -/
def userString (k : State) (addr len : Nat) : List Byte := (List.range len).map (userMem k addr)

end Lxos.Kernel
