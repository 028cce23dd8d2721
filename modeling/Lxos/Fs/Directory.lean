import Lxos.Fs.ReadWrite

/-! Directories and paths: `dirlookup`, `dirlink` and `namex` of `fs.c`, with the
string functions of `string.c` that they call. A path is the list of its bytes
before the terminating zero; a name is a buffer of 14 bytes. -/
namespace Lxos.Fs
open Lxos.Bytes

/-- The loop of `strncmp` at byte `i`, with `n` bytes to go. -/
def strncmpFrom (p q : Buffer) : Nat → Nat → Int
  | 0, _ => 0
  | n+1, i =>
    if p i ≠ 0 ∧ p i = q i then strncmpFrom p q n (i+1)
    else (p i).toNat - (q i).toNat

def strncmp (p q : Buffer) (n : Nat) : Int := strncmpFrom p q n 0

/-- The second loop of `strncpy`. -/
def strncpyZero (s : Buffer) : Nat → Nat → Buffer
  | 0, _ => s
  | n+1, i => strncpyZero (blit s i 1 zeros) n (i+1)

/-- The first loop of `strncpy`, then the second. -/
def strncpyFrom (t : Buffer) (s : Buffer) : Nat → Nat → Buffer
  | 0, _ => s
  | n+1, i =>
    let s := blit s i 1 (fun _ => t i)
    if t i ≠ 0 then strncpyFrom t s n (i+1) else strncpyZero s n (i+1)

def strncpy (s t : Buffer) (n : Nat) : Buffer := strncpyFrom t s n 0

def namecmp (s t : Buffer) : Int := strncmp s t dirsiz

/-- `de.name`, of a directory entry as it lies in memory. -/
def deName (de : Buffer) : Buffer := fun i => de (2 + i)

/-- The entry found, and its offset. The offset wraps around, and then the loop
does not end, after 2²⁸ entries. -/
def dirlookupLoop (dp : Slot) (name : Buffer) :
    Nat → FsState → Buffer → Nat → Except Fault (Option (Slot × Nat) × FsState)
  | 0, _, _, _ => .error .hang
  | fuel+1, st, de, off =>
    if off < (st.icache dp).size.toNat then
      let (r,de,st) := readi st dp de off direntSize
      let st := if r ≠ direntSize then kprint st .dirlookupRead else st
      if le16 de 0 = 0 then dirlookupLoop dp name fuel st de (u32 (off + direntSize))
      else if namecmp name (deName de) = 0 then
        match iget st (st.icache dp).dev (le16 de 0).toNat with
        | .ok (ip,st) => .ok (some (ip,off),st)
        | .error e => .error e
      else dirlookupLoop dp name fuel st de (u32 (off + direntSize))
    else .ok (none,st)

abbrev entries : Nat := 268435456

def dirlookup (st : FsState) (dp : Slot) (name : Buffer) : Except Fault (Option (Slot × Nat) × FsState) :=
  let st := if (st.icache dp).type ≠ tDir then kprint st .dirlookupDir else st
  dirlookupLoop dp name (entries+1) st st.stack 0

/-- The loop of `dirlink`: the offset of the first free entry, or the size. -/
def dirlinkLoop (dp : Slot) : Nat → FsState → Buffer → Nat → Except Fault (Nat × FsState)
  | 0, _, _, _ => .error .hang
  | fuel+1, st, de, off =>
    if off < (st.icache dp).size.toNat then
      let (r,de,st) := readi st dp de off direntSize
      let st := if r ≠ direntSize then kprint st .dirlinkRead else st
      if le16 de 0 = 0 then .ok (off,st)
      else dirlinkLoop dp fuel st de (u32 (off + direntSize))
    else .ok (off,st)

/-- The entry that `dirlink` writes; `inum` is stored in 16 bits. -/
def direntBytes (name : Buffer) (inum : Nat) : Buffer :=
  put16 (blit zeros 2 dirsiz (strncpy zeros name dirsiz)) 0 (BitVec.ofNat 16 inum)

def dirlink (st : FsState) (dp : Slot) (name : Buffer) (inum : Nat) : Except Fault (Int × FsState) :=
  match dirlookup st dp name with
  | .error e => .error e
  | .ok (some (ip,_),st) => .ok (-1,iput st ip)
  | .ok (none,st) =>
    match dirlinkLoop dp (entries+1) st st.stack 0 with
    | .error e => .error e
    | .ok (off,st) =>
      let (r,st) := writei st dp (direntBytes name inum) off direntSize
      .ok (0,if r ≠ direntSize then kprint st .dirlinkWrite else st)

abbrev slash : Byte := 47

/-- The bytes of a list, then zeros. -/
def bytes (l : List Byte) : Buffer := fun i => l.getD i 0

/-- The next path element is copied into `name`; what follows it is returned. -/
def skipelem (path : List Byte) (name : Buffer) : Option (List Byte × Buffer) :=
  match path.dropWhile (· == slash) with
  | [] => none
  | s =>
    let elem := s.takeWhile (· != slash)
    let name :=
      if elem.length ≥ dirsiz then blit name 0 dirsiz (bytes elem)
      else blit (blit name 0 elem.length (bytes elem)) elem.length 1 zeros
    some ((s.dropWhile (· != slash)).dropWhile (· == slash),name)

/-- The loop of `namex`. Each round takes at least one byte of the path. -/
def namexLoop (parent : Bool) :
    Nat → FsState → Slot → List Byte → Buffer → Except Fault (Option Slot × Buffer × FsState)
  | 0, _, _, _, _ => .error .hang
  | fuel+1, st, ip, path, name =>
    match skipelem path name with
    | none => if parent then .ok (none,name,iput st ip) else .ok (some ip,name,st)
    | some (path,name) =>
      let st := ilock st ip
      if (st.icache ip).type ≠ tDir then .ok (none,name,iunlockput st ip)
      else if parent ∧ path = [] then .ok (some ip,name,iunlock st ip)
      else
        match dirlookup st ip name with
        | .error e => .error e
        | .ok (none,st) => .ok (none,name,iunlockput st ip)
        | .ok (some (next,_),st) => namexLoop parent fuel (iunlockput st ip) next path name

/-- `cwd` is the directory of the current process. -/
def namex (st : FsState) (cwd : Slot) (path : List Byte) (parent : Bool) :
    Except Fault (Option Slot × Buffer × FsState) :=
  match (if path.head? = some slash then iget st rootdev rootino else .ok (cwd,idup st cwd)) with
  | .error e => .error e
  | .ok (ip,st) => namexLoop parent (path.length+1) st ip path st.stack

def namei (st : FsState) (cwd : Slot) (path : List Byte) : Except Fault (Option Slot × FsState) :=
  match namex st cwd path false with
  | .error e => .error e
  | .ok (ip,_,st) => .ok (ip,st)

def nameiparent (st : FsState) (cwd : Slot) (path : List Byte) : Except Fault (Option Slot × Buffer × FsState) :=
  namex st cwd path true

end Lxos.Fs
