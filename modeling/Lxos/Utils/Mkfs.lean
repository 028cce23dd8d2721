import Lxos.Fs.Directory

/-! `mkfs.c`, the program that makes the image of a disk. The host is little-endian, so
that `xshort` and `xint` change nothing. `none` is an exit with a status other than 0. -/
namespace Lxos.Utils
open Lxos.Bytes Lxos.Fs

abbrev ninodes : Nat := 200
abbrev fssize : Nat := 1000
abbrev nlog : Nat := 30
abbrev nbitmap : Nat := fssize / (bsize * 8) + 1
abbrev ninodeblocks : Nat := ninodes / ipb + 1
abbrev nmeta : Nat := 2 + nlog + ninodeblocks + nbitmap
abbrev nblocks : Nat := fssize - nmeta

def sb : Superblock := ⟨fssize,nblocks,ninodes,nlog,2,2 + nlog,2 + nlog + ninodeblocks⟩

/-- A file of the command line: its name, and what each `read` gives of it. -/
structure Input where
  name : List Byte
  chunks : List (List Byte)
  string : 0 ∉ name
  sized : ∀ chunk ∈ chunks, 0 < chunk.length ∧ chunk.length ≤ bsize

/-- The image file, and the counters of the program. -/
structure Mkfs where
  sectors : Nat → Block
  /-- Length of the image file. -/
  size : Nat
  freeinode : Nat
  freeblock : Nat

/-- The offset `sec * BSIZE` is a `uint`. -/
def position (sec : Nat) : Nat := u32 (sec * bsize) / bsize

def wsect (s : Mkfs) (sec : Nat) (buf : Block) : Mkfs :=
  { s with sectors := Function.update s.sectors (position sec) buf,size := max s.size (position sec + 1) }

def rsect (s : Mkfs) (sec : Nat) : Option Block :=
  if position sec < s.size then some (s.sectors (position sec)) else none

def winode (s : Mkfs) (inum : Nat) (d : Dinode) : Option Mkfs :=
  match rsect s (sb.iblock inum) with
  | none => none
  | some buf => some (wsect s (sb.iblock inum) (d.encode buf (inodeOffset inum)))

def rinode (s : Mkfs) (inum : Nat) : Option Dinode :=
  match rsect s (sb.iblock inum) with
  | none => none
  | some buf => some (Dinode.decode buf (inodeOffset inum))

def inoalloc (s : Mkfs) (type : BitVec 16) : Option (Nat × Mkfs) :=
  let inum := s.freeinode
  match winode { s with freeinode := u32 (inum + 1) } inum { Dinode.zero with type := type,nlink := 1 } with
  | none => none
  | some s => some (inum,s)

/-- The first `n` bits are set. -/
def usedBits : Nat → Block
  | 0 => zeros
  | i+1 => blit (usedBits i) (i / 8) 1 (fun _ => usedBits i (i / 8) ||| bitMask i)

def balloc (s : Mkfs) (used : Nat) : Option Mkfs :=
  if used < bsize * 8 then some (wsect s sb.bmapstart (usedBits used)) else none

/-- A block is taken: `freeblock++`. -/
def take (s : Mkfs) : Mkfs := { s with freeblock := u32 (s.freeblock + 1) }

/-- The address of file block `fbn` in `iappend`, which `x` becomes. -/
def blockFor (s : Mkfs) (din : Dinode) (fbn : Nat) : Option (Nat × Mkfs × Dinode) :=
  if fbn < ndirect then
    if din.addr fbn = 0 then some (s.freeblock,take s,din.setAddr fbn s.freeblock) else some (din.addr fbn,s,din)
  else
    let (s,din) := if din.addr ndirect = 0 then (take s,din.setAddr ndirect s.freeblock) else (s,din)
    match rsect s (din.addr ndirect) with
    | none => none
    | some indirect =>
      if le32 indirect (4 * (fbn - ndirect)) = 0 then
        some (s.freeblock,wsect (take s) (din.addr ndirect)
          (put32 indirect (4 * (fbn - ndirect)) (BitVec.ofNat 32 s.freeblock)),din)
      else some ((le32 indirect (4 * (fbn - ndirect))).toNat,s,din)

/-- The loop of `iappend`; every round takes at least one byte. -/
def iappendLoop : Nat → Mkfs → Dinode → Nat → Buffer → Nat → Option (Mkfs × Dinode × Nat)
  | 0, s, din, off, _, _ => some (s,din,off)
  | fuel+1, s, din, off, p, n =>
    if n > 0 then
      let fbn := off / bsize
      if fbn < maxfile then
        match blockFor s din fbn with
        | none => none
        | some (x,s,din) =>
          let n1 := min n ((fbn + 1) * bsize - off)
          match rsect s x with
          | none => none
          | some buf =>
            iappendLoop fuel (wsect s x (blit buf (off - fbn * bsize) n1 p)) din (off + n1) (fun i => p (n1 + i)) (n - n1)
      else none
    else some (s,din,off)

def iappend (s : Mkfs) (inum : Nat) (p : Buffer) (n : Nat) : Option Mkfs :=
  match rinode s inum with
  | none => none
  | some din =>
    match iappendLoop n s din din.size.toNat p n with
    | none => none
    | some (s,din,off) => winode s inum { din with size := BitVec.ofNat 32 off }

/-- The directory entry that `main` makes, 16 bytes. -/
def dirent (inum : Nat) (name : List Byte) : Buffer :=
  put16 (blit zeros 2 dirsiz (strncpy zeros (bytes name) dirsiz)) 0 (BitVec.ofNat 16 inum)

/-- A leading underscore is left out. -/
def strip : List Byte → List Byte
  | 95 :: name => name
  | name => name

def appendChunks (s : Mkfs) (inum : Nat) : List (List Byte) → Option Mkfs
  | [] => some s
  | chunk :: chunks =>
    match iappend s inum (bytes chunk) chunk.length with
    | none => none
    | some s => appendChunks s inum chunks

/-- A round of the loop over the files. -/
def addFile (s : Mkfs) (f : Input) : Option Mkfs :=
  if slash ∈ f.name then none
  else
    match inoalloc s tFile with
    | none => none
    | some (inum,s) =>
      match iappend s rootino (dirent inum (strip f.name)) direntSize with
      | none => none
      | some s => appendChunks s inum f.chunks

def addFiles (s : Mkfs) : List Input → Option Mkfs
  | [] => some s
  | f :: files =>
    match addFile s f with
    | none => none
    | some s => addFiles s files

/-- The first `n` rounds of the loop that clears the image. -/
def clear : Nat → Mkfs
  | 0 => ⟨fun _ => zeros,0,1,nmeta⟩
  | n+1 => wsect (clear n) n zeros

/-- The superblock as `memmove` leaves it. -/
def superBlock : Block :=
  blit zeros 0 28 (words (fun i => BitVec.ofNat 32
    ([sb.size,sb.nblocks,sb.ninodes,sb.nlog,sb.logstart,sb.inodestart,sb.bmapstart].getD i 0)))

/-- `main` up to the files. -/
def makeRoot : Option Mkfs :=
  match inoalloc (wsect (clear fssize) 1 superBlock) tDir with
  | none => none
  | some (inum,s) =>
    match iappend s inum (dirent inum [46]) direntSize with
    | none => none
    | some s => iappend s inum (dirent inum [46,46]) direntSize

/-- `main` after the files: the size of the root directory, and the bitmap. -/
def finishRoot (s : Mkfs) : Option Mkfs :=
  match rinode s rootino with
  | none => none
  | some din =>
    match winode s rootino { din with size := BitVec.ofNat 32 ((din.size.toNat / bsize + 1) * bsize) } with
    | none => none
    | some s => balloc s s.freeblock

def mkfs (files : List Input) : Option Mkfs :=
  match makeRoot with
  | none => none
  | some s =>
    match addFiles s files with
    | none => none
    | some s => finishRoot s

end Lxos.Utils
