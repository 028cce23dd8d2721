import Lxos.Fs.Path
import Lxos.Fs.Entries
import Lxos.Kernel.Calls

/-! The file service that the kernel offers, without blocks, caches or references: inodes
with their bytes, a working directory and a table of descriptors. This is what the calls
mean, and not how they are carried out. -/
namespace Lxos.Files
open Lxos.Bytes Lxos.Fs Lxos.Kernel Lxos.Places

/-- An inode as its users see it. It is free if it has no type. -/
@[ext] structure Node where
  type : BitVec 16
  major : BitVec 16
  minor : BitVec 16
  nlink : BitVec 16
  data : List Byte

/-- An open file. -/
structure Desc where
  inum : Nat
  readable : Bool
  writable : Bool
  off : Nat

@[ext] structure Service where
  ninodes : Nat
  node : Nat → Node
  desc : Fin nofile → Option Desc
  cwd : Nat

/-- `src` laid over the data from `off` on. -/
def overlay (data : List Byte) (off : Nat) (src : List Byte) : List Byte :=
  data.take off ++ src ++ data.drop (off + src.length)

/-- A directory entry: a number, and a name filled up with zeros. -/
def record (title : List Byte) (n : Nat) : List Byte :=
  BitVec.ofNat 8 n :: BitVec.ofNat 8 (n / 256) :: (title ++ List.replicate (dirsiz - title.length) 0)

/-- The first free entry of a directory, or its end. -/
def vacancy (data : List Byte) : Nat :=
  ((List.range (data.length / 16)).find? fun j => (table (bytes data) j).isNone).getD (data.length / 16)

/-- A name counts with its first 14 bytes, and the first entry that has it. -/
def Node.entry (v : Node) (name : List Byte) : Option Nat :=
  if v.type = tDir then (find (table (bytes v.data)) (v.data.length / 16) (name.take dirsiz)).map Prod.fst
  else none

/-- A directory with an entry more, or one of the largest size as it is. -/
def Node.linked (v : Node) (title : List Byte) (n : Nat) : Node :=
  if 16 * vacancy v.data + 16 ≤ 71680 then { v with data := overlay v.data (16 * vacancy v.data) (record title n) } else v

namespace Service

def setNode (s : Service) (i : Nat) (v : Node) : Service := { s with node := Function.update s.node i v }

def setDesc (s : Service) (fd : Fin nofile) (d : Option Desc) : Service :=
  { s with desc := Function.update s.desc fd d }

def start (s : Service) (path : List Byte) : Nat := if path.head? = some slash then rootino else s.cwd

def walk (s : Service) (i : Nat) (path : List (List Byte)) : Option Nat := path.foldlM (fun i => (s.node i).entry) i

/-- The inode of a path. -/
def resolve (s : Service) (path : List Byte) : Option Nat := s.walk (s.start path) (components path)

/-- The directory of the last component of a path, and the name that counts. -/
def parent (s : Service) (path : List Byte) : Option (Nat × List Byte) :=
  match (components path).getLast? with
  | none => none
  | some last =>
    ((s.walk (s.start path) (components path).dropLast).filter fun d => (s.node d).type = tDir).map
      fun d => (d,last.take dirsiz)

def free (s : Service) : Option Nat :=
  (List.range s.ninodes).find? fun i => decide (1 ≤ i ∧ (s.node i).type = 0)

def link (s : Service) (d : Nat) (title : List Byte) (n : Nat) : Service := s.setNode d ((s.node d).linked title n)

/-- With no inode left the kernel follows a null pointer. -/
def create (s : Service) (path : List Byte) (type major minor : BitVec 16) : Except Fault (Option Nat × Service) :=
  match s.parent path with
  | none => .ok (none,s)
  | some (d,title) =>
    match (s.node d).entry title with
    | some i => .ok (if type = tFile ∧ (s.node i).type = tFile then some i else none,s)
    | none =>
      match s.free with
      | none => .error .nullInode
      | some i => .ok (some i,(s.setNode i ⟨type,major,minor,1,[]⟩).link d title i)

/-- The lowest free descriptor is taken. -/
def describe (s : Service) (i omode : Nat) : Int × Service :=
  match (List.finRange nofile).find? fun fd => (s.desc fd).isNone with
  | none => (-1,s)
  | some fd =>
    (fd.val,s.setDesc fd (some ⟨i,!omode.testBit 0,omode.testBit 0 || omode.testBit 1,0⟩))

def open_ (s : Service) (path : List Byte) (omode : Nat) : Except Fault (Int × Service) :=
  if omode.testBit 9 then
    match s.create path tFile 0 0 with
    | .error e => .error e
    | .ok (none,s) => .ok (-1,s)
    | .ok (some i,s) => .ok (s.describe i omode)
  else
    match s.resolve path with
    | none => .ok (-1,s)
    | some i => if (s.node i).type = tDir ∧ omode ≠ 0 then .ok (-1,s) else .ok (s.describe i omode)

def mknod (s : Service) (path : List Byte) (major minor : Nat) : Except Fault (Int × Service) :=
  match s.create path tDev (BitVec.ofNat 16 major) (BitVec.ofNat 16 minor) with
  | .error e => .error e
  | .ok (none,s) => .ok (-1,s)
  | .ok (some _,s) => .ok (0,s)

/-- The open file of a number. -/
def lookup (s : Service) (fd : Nat) : Option (Fin nofile × Desc) :=
  if h : fd < nofile then (s.desc ⟨fd,h⟩).map fun d => (⟨fd,h⟩,d) else none

/-- No device can be read. -/
def read (s : Service) (fd n : Nat) : Int × List Byte × Service :=
  match s.lookup fd with
  | none => (-1,[],s)
  | some (fd,d) =>
    if d.readable = false ∨ (s.node d.inum).type = tDev then (-1,[],s)
    else
      let got := ((s.node d.inum).data.drop d.off).take n
      (got.length,got,s.setDesc fd (some { d with off := d.off + got.length }))

/-- What a write past the largest size leaves behind: its whole chunks that fit. -/
def fitting (off : Nat) (src : List Byte) : List Byte :=
  if off + src.length ≤ 71680 then src else src.take (writeMax * ((71680 - off) / writeMax))

/-- The console takes all that is written to it, and no other device takes anything. -/
def writeDevice (s : Service) (fd : Fin nofile) (d : Desc) (src : List Byte) : Int × Service :=
  if src = [] then (0,s)
  else if (s.node d.inum).major = 1 then (src.length,s.setDesc fd (some { d with off := u32 (d.off + src.length) }))
  else (-1,s)

def write (s : Service) (fd : Nat) (src : List Byte) : Int × Service :=
  match s.lookup fd with
  | none => (-1,s)
  | some (fd,d) =>
    if d.writable = false then (-1,s)
    else if (s.node d.inum).type = tDev then s.writeDevice fd d src
    else
      let part := fitting d.off src
      (if part.length = src.length then src.length else -1,
        (s.setNode d.inum { s.node d.inum with data := overlay (s.node d.inum).data d.off part }).setDesc fd
          (some { d with off := d.off + part.length }))

def close (s : Service) (fd : Nat) : Int × Service :=
  match s.lookup fd with
  | none => (-1,s)
  | some (fd,_) => (0,s.setDesc fd none)

def fstat (s : Service) (fd : Nat) : Int × Option Stat :=
  match s.lookup fd with
  | none => (-1,none)
  | some (_,d) =>
    let v := s.node d.inum
    (0,some ⟨v.type,rootdev,d.inum,v.nlink,BitVec.ofNat 32 v.data.length⟩)

end Service

/-- What the program asks for. It is refused if its arguments do not lie in its memory. -/
inductive Request
  | refused
  | open_ (path : List Byte) (omode : Nat)
  | mknod (path : List Byte) (major minor : Nat)
  | read (fd n : Nat)
  | write (fd : Nat) (src : List Byte)
  | close (fd : Nat)
  | fstat (fd : Nat)

/-- What the program gets in its memory. -/
inductive Output
  | none
  | bytes (l : List Byte)
  | stat (s : Stat)

def Service.serve (s : Service) : Request → Except Fault ((Int × Output) × Service)
  | .refused => .ok ((-1,.none),s)
  | .open_ path omode => (s.open_ path omode).map fun r => ((r.1,.none),r.2)
  | .mknod path major minor => (s.mknod path major minor).map fun r => ((r.1,.none),r.2)
  | .read fd n => .ok (((s.read fd n).1,.bytes (s.read fd n).2.1),(s.read fd n).2.2)
  | .write fd src => .ok (((s.write fd src).1,.none),(s.write fd src).2)
  | .close fd => .ok (((s.close fd).1,.none),(s.close fd).2)
  | .fstat fd => .ok (((s.fstat fd).1,((s.fstat fd).2.map .stat).getD .none),s)

end Lxos.Files
