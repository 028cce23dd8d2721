import Lxos.Kernel.Calls
import Mathlib.Logic.Relation

/-! The first process, as `uinit` leaves it, and what can happen to it: its program
runs, or makes a system call. -/
namespace Lxos.Kernel
open Lxos.Bytes Lxos.Fs

/-- The file system before any of its functions is called; the disk is arbitrary. -/
def cold (disk : Nat → Nat → Block) (stack : Buffer) : FsState where
  disk := disk
  sb := Superblock.decode zeros
  icache := fun _ => ⟨Dinode.zero,0,0,0,false⟩
  stack := stack
  trace := []

/-- `kinit1` and `kinit2`: the pages from the end of the kernel to 4 MB, then those to `PHYSTOP`. -/
def kinit1 (m : Vm) (first : Page) : Vm := freerange m first (1024 - first)

def kinit2 (m : Vm) : Vm := freerange m 1024 (57344 - 1024)

/-- `uinit` from its call of `namei` on; `forkret` then reads the superblock. -/
def uinit (m : Vm) (kstack pgdir : Page) (fs : FsState) : Except Fault State :=
  match namei fs 0 [slash] with
  | .error e => .error e
  | .ok (none,_) => .error .nullInode
  | .ok (some cwd,fs) => .ok {
      fs := readsb fs rootdev
      file := fun _ => ⟨.none,0,false,false,0,0⟩
      vm := m
      proc := {
        sz := pgsize
        pgdir := pgdir
        kstack := kstack
        name := safestrcpy zeros [105,110,105,116] 16
        ofile := fun _ => none
        cwd := cwd
        eip := 0
        esp := pgsize }
      touched := [] }

/-- `kernel_main` up to the first process, with the page directory of the kernel. -/
def boot (data : Nat) (first : Page) (init : Buffer) (size : Nat) (fs : FsState) (m : Vm) :
    Except Fault (Page × State) :=
  match setupkvm data (kinit1 m first) with
  | .error e => .error e
  | .ok (none,_) => .error .nullEntry
  | .ok (some kpgdir,m) =>
    match kalloc (kinit2 m) with
    | (none,_) => .error .nullEntry
    | (some kstack,m) =>
      match setupkvm data m with
      | .error e => .error e
      | .ok (none,_) => .error .nullEntry
      | .ok (some pgdir,m) =>
        match inituvm m pgdir init size with
        | .error e => .error e
        | .ok m =>
          match uinit m kstack pgdir fs with
          | .error e => .error e
          | .ok k => .ok (kpgdir,k)

/-- The program changes its memory and its stack pointer at will, what local
variables of the kernel hold is unknown, and any allocation may fail. -/
inductive Step (data : Nat) : State → State → Prop
  | user (k : State) (frame : Page → Buffer) (refused : List Bool) (esp : Nat) (stack : Buffer) :
    Step data k { k with
      vm := { k.vm with frame := frame,refused := refused }
      proc := { k.proc with esp := esp }
      fs := { k.fs with stack := stack } }
  | call (k k' : State) (call : Call) (r : Int) (ok : dispatch data k call = .ok (r,k')) : Step data k k'

/-- Any number of steps. -/
def Run (data : Nat) : State → State → Prop := Relation.ReflTransGen (Step data)

end Lxos.Kernel
