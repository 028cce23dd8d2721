import Lxos.Fs.Bitmap
import Mathlib.Data.Fintype.Basic

/-! Inodes of `fs.c`: the table on disk, the cache, and the block map. An inode
pointer is the index of its cache slot. -/
namespace Lxos.Fs
open Lxos.Bytes

/-- Byte offset of dinode `inum` in its block. -/
def inodeOffset (inum : Nat) : Nat := inum % ipb * 64

def iupdate (st : FsState) (ip : Slot) : FsState :=
  let i := st.icache ip
  let bno := st.sb.iblock i.inum
  let st := bread st i.dev bno
  let st := bwrite st i.dev bno (i.encode (st.disk i.dev bno) (inodeOffset i.inum))
  brelse st i.dev bno

/-- The first slot with a reference to the inode, else the first free slot. -/
def iget (st : FsState) (dev inum : Nat) : Except Fault (Slot × FsState) :=
  match (List.finRange ninode).find? fun s =>
      0 < (st.icache s).ref && (st.icache s).dev == dev && (st.icache s).inum == inum with
  | some ip => .ok (ip,st.setInode ip { st.icache ip with ref := (st.icache ip).ref + 1 })
  | none =>
    match (List.finRange ninode).find? fun s => (st.icache s).ref == 0 with
    | some ip =>
      .ok (ip,st.setInode ip { st.icache ip with dev := dev,inum := inum,ref := 1,valid := false })
    | none => .error .noSlot

def idup (st : FsState) (ip : Slot) : FsState :=
  st.setInode ip { st.icache ip with ref := (st.icache ip).ref + 1 }

/-- The dinode on disk becomes zero but for its type. -/
def claimDinode (st : FsState) (dev inum : Nat) (type : BitVec 16) : FsState :=
  let bno := st.sb.iblock inum
  let o := inodeOffset inum
  brelse (bwrite st dev bno (put16 (blit (st.disk dev bno) o 64 zeros) o type)) dev bno

def iallocLoop (dev : Nat) (type : BitVec 16) : Nat → FsState → Nat → Except Fault (Option Slot × FsState)
  | 0, st, _ => .ok (none,kprint st .iallocOut)
  | fuel+1, st, inum =>
    if inum < st.sb.ninodes then
      let bno := st.sb.iblock inum
      let st := bread st dev bno
      if le16 (st.disk dev bno) (inodeOffset inum) = 0 then
        match iget (claimDinode st dev inum type) dev inum with
        | .error e => .error e
        | .ok (ip,st) => .ok (some ip,st)
      else iallocLoop dev type fuel (brelse st dev bno) (inum+1)
    else .ok (none,kprint st .iallocOut)

def ialloc (st : FsState) (dev : Nat) (type : BitVec 16) : Except Fault (Option Slot × FsState) :=
  iallocLoop dev type st.sb.ninodes st 1

def ilock (st : FsState) (ip : Slot) : FsState :=
  let st := if (st.icache ip).ref < 1 then kprint st .ilock else st
  let i := st.icache ip
  if i.valid then st
  else
    let bno := st.sb.iblock i.inum
    let st := bread st i.dev bno
    let d := Dinode.decode (st.disk i.dev bno) (inodeOffset i.inum)
    let st := brelse (st.setDinode ip d) i.dev bno
    let st := st.setInode ip { st.icache ip with valid := true }
    if d.type = 0 then kprint st .ilockType else st

def iunlock (st : FsState) (ip : Slot) : FsState :=
  if (st.icache ip).ref < 1 then kprint st .iunlock else st

/-- `ip->addrs[i] = v`. -/
def FsState.setAddr (st : FsState) (ip : Slot) (i v : Nat) : FsState :=
  st.setDinode ip ((st.icache ip).toDinode.setAddr i v)

def bmap (st : FsState) (ip : Slot) (bn : Nat) : Nat × FsState :=
  let dev := (st.icache ip).dev
  if bn < ndirect then
    let addr := (st.icache ip).addr bn
    if addr = 0 then
      let (addr,st) := balloc st dev
      (addr,st.setAddr ip bn addr)
    else (addr,st)
  else
    let bn := bn - ndirect
    if bn < nindirect then
      let (addr,st) :=
        if (st.icache ip).addr ndirect = 0 then
          let (addr,st) := balloc st dev
          (addr,st.setAddr ip ndirect addr)
        else ((st.icache ip).addr ndirect,st)
      let st := bread st dev addr
      let entry := (le32 (st.disk dev addr) (4 * bn)).toNat
      if entry = 0 then
        let (entry,st) := balloc st dev
        let st := bwrite st dev addr (put32 (st.disk dev addr) (4 * bn) (BitVec.ofNat 32 entry))
        (entry,brelse st dev addr)
      else (entry,brelse st dev addr)
    else (4294967295,kprint st .bmapRange)

/-- The first `n` rounds of the loop over the direct addresses. -/
def itruncDirect (ip : Slot) : Nat → FsState → FsState
  | 0, st => st
  | i+1, st =>
    let st := itruncDirect ip i st
    if (st.icache ip).addr i = 0 then st
    else (bfree st (st.icache ip).dev ((st.icache ip).addr i)).setAddr ip i 0

/-- The first `n` rounds of the loop over the entries of the indirect block. -/
def itruncEntries (dev blockno : Nat) : Nat → FsState → FsState
  | 0, st => st
  | j+1, st =>
    let st := itruncEntries dev blockno j st
    let entry := (le32 (st.disk dev blockno) (4 * j)).toNat
    if entry = 0 then st else bfree st dev entry

def itrunc (st : FsState) (ip : Slot) : FsState :=
  let st := itruncDirect ip ndirect (st.emit (.itrunc (st.icache ip).dev (st.icache ip).inum))
  let dev := (st.icache ip).dev
  let addr := (st.icache ip).addr ndirect
  let st :=
    if addr = 0 then st
    else
      let st := bread st dev addr
      let st := itruncEntries dev addr nindirect st
      let st := brelse st dev addr
      (bfree st dev addr).setAddr ip ndirect 0
  let st := st.setDinode ip { (st.icache ip).toDinode with size := 0 }
  iupdate st ip

def iput (st : FsState) (ip : Slot) : FsState :=
  let i := st.icache ip
  let st :=
    if i.valid ∧ i.nlink = 0 ∧ i.ref = 1 then
      let st := itrunc st ip
      let st := st.setDinode ip { (st.icache ip).toDinode with type := 0 }
      let st := iupdate st ip
      st.setInode ip { st.icache ip with valid := false }
    else st
  st.setInode ip { st.icache ip with ref := (st.icache ip).ref - 1 }

def iunlockput (st : FsState) (ip : Slot) : FsState := iput (iunlock st ip) ip

/-- `struct stat`. -/
structure Stat where
  type : BitVec 16
  dev : Nat
  ino : Nat
  nlink : BitVec 16
  size : BitVec 32

def stati (i : Inode) : Stat := ⟨i.type,i.dev,i.inum,i.nlink,i.size⟩

end Lxos.Fs
