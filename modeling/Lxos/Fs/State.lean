import Lxos.Fs.Format

/-! The kernel state that `fs.c` works on. A block is read and written through
the buffer cache; the model keeps one copy of each block, since every change of a
buffer is written at once, and `Lxos.Bio` proves that the cache is transparent.
Events record the requests made to the cache, the messages printed and the inodes truncated. -/
namespace Lxos.Fs
open Lxos.Bytes

/-- The texts that `fs.c`, `file.c` and `calls.c` print. -/
inductive Message
  | ballocOut | freeingFree | iallocOut | igetOut | ilock | ilockType | iunlock | bmapRange
  | dirlookupDir | dirlookupRead | dirlinkRead | dirlinkWrite | createDots | createDirlink
  | fileread | filewrite | shortWrite
deriving DecidableEq, Repr

def Message.text : Message → String
  | ballocOut => "balloc: out of blocks"
  | freeingFree => "freeing free block"
  | iallocOut => "ialloc: no inodes"
  | igetOut => "iget: no inodes"
  | ilock => "ilock\n"
  | ilockType => "ilock: no type"
  | iunlock => "iunlock\n"
  | bmapRange => "bmap: out of range"
  | dirlookupDir => "dirlookup not DIR"
  | dirlookupRead => "dirlookup read"
  | dirlinkRead => "dirlink read"
  | dirlinkWrite => "dirlink"
  | createDots => "create dots"
  | createDirlink => "create: dirlink"
  | fileread => "fileread"
  | filewrite => "filewrite"
  | shortWrite => "short filewrite"

inductive Event
  | bread (dev blockno : Nat)
  | bwrite (dev blockno : Nat) (data : Block)
  | brelse (dev blockno : Nat)
  | print (message : Message)
  | itrunc (dev inum : Nat)

def Event.isPrint (message : Message) : Event → Bool
  | .print m => m == message
  | _ => false

/-- Points at which the code leaves what C defines, or never returns. -/
inductive Fault
  /-- `iget` writes through its null `empty`. -/
  | noSlot
  /-- `create` locks the null pointer that `ialloc` returned. -/
  | nullInode
  /-- A loop whose offset wraps around without passing its bound. -/
  | hang
  /-- The current page directory does not map the address. -/
  | pageFault
  /-- A page-table entry is read through the null pointer of `walkpgdir`. -/
  | nullEntry
  /-- `bread` reads the flags of the null buffer that `bget` returned. -/
  | nullBuffer
deriving DecidableEq, Repr

abbrev Slot := Fin ninode

instance neZero_slots : NeZero ninode := ⟨by decide⟩

/-- `struct inode`: a reference-counted copy of a dinode. -/
structure Inode extends Dinode where
  dev : Nat
  inum : Nat
  ref : Int
  valid : Bool

structure FsState where
  disk : Nat → Nat → Block
  sb : Superblock
  icache : Slot → Inode
  /-- What a local variable holds before it is assigned. -/
  stack : Buffer
  /-- Most recent event first. -/
  trace : List Event

namespace FsState

def emit (st : FsState) (e : Event) : FsState := { st with trace := e :: st.trace }

/-- `ip` becomes `v`. -/
def setInode (st : FsState) (ip : Slot) (v : Inode) : FsState :=
  { st with icache := fun s => if s = ip then v else st.icache s }

/-- Assignments to the fields that are copies of the dinode. -/
def setDinode (st : FsState) (ip : Slot) (d : Dinode) : FsState :=
  st.setInode ip { st.icache ip with toDinode := d }

def exhausted (st : FsState) : Bool := st.trace.any (Event.isPrint .ballocOut)

def inodesExhausted (st : FsState) : Bool := st.trace.any (Event.isPrint .iallocOut)

section fields
variable (st : FsState) (e : Event) (ip s : Slot) (v : Inode) (d : Dinode)

@[simp] theorem emit_disk : (st.emit e).disk = st.disk := rfl
@[simp] theorem emit_sb : (st.emit e).sb = st.sb := rfl
@[simp] theorem emit_icache : (st.emit e).icache = st.icache := rfl
@[simp] theorem emit_stack : (st.emit e).stack = st.stack := rfl
@[simp] theorem emit_trace : (st.emit e).trace = e :: st.trace := rfl
@[simp] theorem setInode_disk : (st.setInode ip v).disk = st.disk := rfl
@[simp] theorem setInode_sb : (st.setInode ip v).sb = st.sb := rfl
@[simp] theorem setInode_stack : (st.setInode ip v).stack = st.stack := rfl
@[simp] theorem setInode_trace : (st.setInode ip v).trace = st.trace := rfl
@[simp] theorem setInode_same : (st.setInode ip v).icache ip = v := if_pos rfl
theorem setInode_other (h : s ≠ ip) : (st.setInode ip v).icache s = st.icache s := if_neg h
@[simp] theorem setDinode_disk : (st.setDinode ip d).disk = st.disk := rfl
@[simp] theorem setDinode_sb : (st.setDinode ip d).sb = st.sb := rfl
@[simp] theorem setDinode_stack : (st.setDinode ip d).stack = st.stack := rfl
@[simp] theorem setDinode_trace : (st.setDinode ip d).trace = st.trace := rfl
@[simp] theorem setDinode_same :
    (st.setDinode ip d).icache ip = { st.icache ip with toDinode := d } := if_pos rfl
theorem setDinode_other (h : s ≠ ip) : (st.setDinode ip d).icache s = st.icache s := if_neg h

end fields
end FsState

def kprint (st : FsState) (message : Message) : FsState := st.emit (.print message)

/-- The buffer returned is named by its block; `st.disk dev blockno` is its data. -/
def bread (st : FsState) (dev blockno : Nat) : FsState := st.emit (.bread dev blockno)

/-- The data of the buffer becomes `data` and is written. -/
def bwrite (st : FsState) (dev blockno : Nat) (data : Block) : FsState :=
  { st with
    disk := fun d b => if d = dev ∧ b = blockno then data else st.disk d b
    trace := .bwrite dev blockno data :: st.trace }

def brelse (st : FsState) (dev blockno : Nat) : FsState := st.emit (.brelse dev blockno)

section fields
variable (st : FsState) (m : Message) (dev b : Nat) (data : Block)

@[simp] theorem kprint_disk : (kprint st m).disk = st.disk := rfl
@[simp] theorem kprint_sb : (kprint st m).sb = st.sb := rfl
@[simp] theorem kprint_icache : (kprint st m).icache = st.icache := rfl
@[simp] theorem kprint_stack : (kprint st m).stack = st.stack := rfl
@[simp] theorem kprint_trace : (kprint st m).trace = .print m :: st.trace := rfl
@[simp] theorem bread_disk : (bread st dev b).disk = st.disk := rfl
@[simp] theorem bread_sb : (bread st dev b).sb = st.sb := rfl
@[simp] theorem bread_icache : (bread st dev b).icache = st.icache := rfl
@[simp] theorem bread_stack : (bread st dev b).stack = st.stack := rfl
@[simp] theorem bread_trace : (bread st dev b).trace = .bread dev b :: st.trace := rfl
@[simp] theorem brelse_disk : (brelse st dev b).disk = st.disk := rfl
@[simp] theorem brelse_sb : (brelse st dev b).sb = st.sb := rfl
@[simp] theorem brelse_icache : (brelse st dev b).icache = st.icache := rfl
@[simp] theorem brelse_stack : (brelse st dev b).stack = st.stack := rfl
@[simp] theorem brelse_trace : (brelse st dev b).trace = .brelse dev b :: st.trace := rfl
@[simp] theorem bwrite_sb : (bwrite st dev b data).sb = st.sb := rfl
@[simp] theorem bwrite_icache : (bwrite st dev b data).icache = st.icache := rfl
@[simp] theorem bwrite_stack : (bwrite st dev b data).stack = st.stack := rfl
@[simp] theorem bwrite_trace : (bwrite st dev b data).trace = .bwrite dev b data :: st.trace := rfl
@[simp] theorem bwrite_same : (bwrite st dev b data).disk dev b = data := if_pos ⟨rfl,rfl⟩

theorem bwrite_disk : (bwrite st dev b data).disk dev = Function.update (st.disk dev) b data := by
  funext c
  by_cases same : c = b <;> simp [bwrite,Function.update,same]

theorem bwrite_other {d c : Nat} (h : d ≠ dev ∨ c ≠ b) : (bwrite st dev b data).disk d c = st.disk d c := by
  have distinct : ¬(d = dev ∧ c = b) := by omega
  simp only [bwrite,distinct,if_false]

end fields

end Lxos.Fs
