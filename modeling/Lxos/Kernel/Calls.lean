import Lxos.Kernel.Exec

/-! The system calls of `calls.c`. Each reads its arguments from user memory. -/
namespace Lxos.Kernel
open Lxos.Bytes Lxos.Fs

abbrev oWronly : Nat := 1
abbrev oRdwr : Nat := 2
abbrev oCreate : Nat := 512

/-- The entries `.` and `..` of a new directory. -/
def createDots (fs : FsState) (dp ip : Slot) : Except Fault FsState :=
  let fs := fs.setDinode dp { (fs.icache dp).toDinode with nlink := (fs.icache dp).nlink + 1 }
  let fs := iupdate fs dp
  match dirlink fs ip (bytes [46]) (fs.icache ip).inum with
  | .error e => .error e
  | .ok (r,fs) =>
    if r < 0 then .ok (kprint fs .createDots)
    else
      match dirlink fs ip (bytes [46,46]) (fs.icache dp).inum with
      | .error e => .error e
      | .ok (r,fs) => .ok (if r < 0 then kprint fs .createDots else fs)

/-- The new inode gets its attributes, and its dinode is written. -/
def createInode (fs : FsState) (ip : Slot) (major minor : BitVec 16) : FsState :=
  let fs := ilock fs ip
  iupdate (fs.setDinode ip { (fs.icache ip).toDinode with major := major,minor := minor,nlink := 1 }) ip

/-- `create` where the name is not in the directory `dp`. -/
def createNew (fs : FsState) (dp : Slot) (name : Buffer) (type major minor : BitVec 16) :
    Except Fault (Slot × FsState) :=
  match ialloc fs (fs.icache dp).dev type with
  | .error e => .error e
  | .ok (none,_) => .error .nullInode
  | .ok (some ip,fs) =>
    let fs := createInode fs ip major minor
    match (if type = tDir then createDots fs dp ip else .ok fs) with
    | .error e => .error e
    | .ok fs =>
      match dirlink fs dp name (fs.icache ip).inum with
      | .error e => .error e
      | .ok (r,fs) =>
        let fs := if r < 0 then kprint fs .createDirlink else fs
        .ok (ip,iunlockput fs dp)

/-- `create`, and the slot locked. `dev` numbers are cut to 16 bits by the call. -/
def create (fs : FsState) (cwd : Slot) (path : List Byte) (type major minor : BitVec 16) :
    Except Fault (Option Slot × FsState) :=
  match nameiparent fs cwd path with
  | .error e => .error e
  | .ok (none,_,fs) => .ok (none,fs)
  | .ok (some dp,name,fs) =>
    let fs := ilock fs dp
    match dirlookup fs dp name with
    | .error e => .error e
    | .ok (some (ip,_),fs) =>
      let fs := ilock (iunlockput fs dp) ip
      if type = tFile ∧ (fs.icache ip).type = tFile then .ok (some ip,fs)
      else .ok (none,iunlockput fs ip)
    | .ok (none,fs) =>
      match createNew fs dp name type major minor with
      | .error e => .error e
      | .ok (ip,fs) => .ok (some ip,fs)

/-- The first free descriptor. -/
def fdalloc (k : State) (f : FileId) : Option (Fin nofile × State) :=
  match (List.finRange nofile).find? (fun fd => (k.proc.ofile fd).isNone) with
  | some fd => some (fd,{ k with proc := { k.proc with ofile := Function.update k.proc.ofile fd (some f) } })
  | none => none

/-- `sys_open` from the locked inode on. -/
def openFile (k : State) (ip : Slot) (omode : Nat) : Int × State :=
  match filealloc k with
  | none => (-1,{ k with fs := iunlockput k.fs ip })
  | some (f,k) =>
    match fdalloc k f with
    | none =>
      let k := fileclose k f
      (-1,{ k with fs := iunlockput k.fs ip })
    | some (fd,k) =>
      let k := { k with fs := iunlock k.fs ip }
      let wronly := omode.testBit 0
      (fd.val,k.setFile f { k.file f with
        type := .inode, ip := ip, off := 0, readable := !wronly, writable := wronly || omode.testBit 1 })

/-- `sys_open` with its arguments. -/
def openPath (k : State) (path : List Byte) (omode : Nat) : Except Fault (Int × State) :=
  if omode.testBit 9 then
    match create k.fs k.proc.cwd path tFile 0 0 with
    | .error e => .error e
    | .ok (none,fs) => .ok (-1,{ k with fs := fs })
    | .ok (some ip,fs) => .ok (openFile { k with fs := fs } ip omode)
  else
    match namei k.fs k.proc.cwd path with
    | .error e => .error e
    | .ok (none,fs) => .ok (-1,{ k with fs := fs })
    | .ok (some ip,fs) =>
      let fs := ilock fs ip
      if (fs.icache ip).type = tDir ∧ omode ≠ 0 then .ok (-1,{ k with fs := iunlockput fs ip })
      else .ok (openFile { k with fs := fs } ip omode)

def sysOpen (k : State) : Except Fault (Int × State) :=
  match argstr k 0 with
  | .error e => .error e
  | .ok (none,k) => .ok (-1,k)
  | .ok (some (addr,len),k) =>
    match argint k 1 with
    | .error e => .error e
    | .ok (none,k) => .ok (-1,k)
    | .ok (some omode,k) => openPath k (userString k addr len) omode

/-- `sys_mknod` with its arguments. -/
def mknodPath (k : State) (path : List Byte) (major minor : Nat) : Except Fault (Int × State) :=
  match create k.fs k.proc.cwd path tDev (BitVec.ofNat 16 major) (BitVec.ofNat 16 minor) with
  | .error e => .error e
  | .ok (none,fs) => .ok (-1,{ k with fs := fs })
  | .ok (some ip,fs) => .ok (0,{ k with fs := iunlockput fs ip })

def sysMknod (k : State) : Except Fault (Int × State) :=
  match argstr k 0 with
  | .error e => .error e
  | .ok (none,k) => .ok (-1,k)
  | .ok (some (addr,len),k) =>
    match argint k 1 with
    | .error e => .error e
    | .ok (none,k) => .ok (-1,k)
    | .ok (some major,k) =>
      match argint k 2 with
      | .error e => .error e
      | .ok (none,k) => .ok (-1,k)
      | .ok (some minor,k) => mknodPath k (userString k addr len) major minor

/-- The descriptor that argument `n` is, and its open file. -/
def argfd (k : State) (n : Nat) : Except Fault (Option (Fin nofile × FileId) × State) :=
  match argint k n with
  | .error e => .error e
  | .ok (none,k) => .ok (none,k)
  | .ok (some fd,k) =>
    if h : fd < nofile then
      match k.proc.ofile ⟨fd,h⟩ with
      | none => .ok (none,k)
      | some f => .ok (some (⟨fd,h⟩,f),k)
    else .ok (none,k)

/-- The arguments of `read` and `write`: the file, the address and the length. -/
def argbuf (k : State) : Except Fault (Option (FileId × Nat × Nat) × State) :=
  match argfd k 0 with
  | .error e => .error e
  | .ok (none,k) => .ok (none,k)
  | .ok (some (_,f),k) =>
    match argint k 2 with
    | .error e => .error e
    | .ok (none,k) => .ok (none,k)
    | .ok (some n,k) =>
      match argptr k 1 (int32 n) with
      | .error e => .error e
      | .ok (none,k) => .ok (none,k)
      | .ok (some p,k) => .ok (some (f,p,n),k)

def sysWrite (k : State) : Except Fault (Int × State) :=
  match argbuf k with
  | .error e => .error e
  | .ok (none,k) => .ok (-1,k)
  | .ok (some (f,p,n),k) => filewrite k f p n

def sysRead (k : State) : Except Fault (Int × State) :=
  match argbuf k with
  | .error e => .error e
  | .ok (none,k) => .ok (-1,k)
  | .ok (some (f,p,n),k) => .ok (fileread k f p n)

def sysClose (k : State) : Except Fault (Int × State) :=
  match argfd k 0 with
  | .error e => .error e
  | .ok (none,k) => .ok (-1,k)
  | .ok (some (fd,f),k) =>
    .ok (0,fileclose { k with proc := { k.proc with ofile := Function.update k.proc.ofile fd none } } f)

abbrev statSize : Nat := 20

/-- `struct stat` over the bytes that were there, which its padding keeps. -/
def statBytes (old : Buffer) (s : Stat) : Buffer :=
  let b := put16 old 0 s.type
  let b := put32 b 4 (BitVec.ofNat 32 s.dev)
  let b := put32 b 8 (BitVec.ofNat 32 s.ino)
  let b := put16 b 12 s.nlink
  put32 b 16 s.size

def sysFstat (k : State) : Except Fault (Int × State) :=
  match argfd k 0 with
  | .error e => .error e
  | .ok (none,k) => .ok (-1,k)
  | .ok (some (_,f),k) =>
    match argptr k 1 statSize with
    | .error e => .error e
    | .ok (none,k) => .ok (-1,k)
    | .ok (some p,k) =>
      match filestat k f with
      | (r,none,k) => .ok (r,k)
      | (r,some s,k) => .ok (r,storeUser k p (statBytes (userMem k p) s) statSize)

/-- The loop of `sys_exec` over the argument array, at index `i`: the address and
length of each string. -/
def argvLoop (uargv : Nat) : Nat → State → Nat → Except Fault (Option (List (Nat × Nat)) × State)
  | 0, k, _ => .ok (none,k)
  | fuel+1, k, i =>
    match getint k (u32 (uargv + 4*i)) with
    | .error e => .error e
    | .ok (none,k) => .ok (none,k)
    | .ok (some uarg,k) =>
      if uarg = 0 then .ok (some [],k)
      else
        match getstr k uarg with
        | .error e => .error e
        | .ok (none,k) => .ok (none,k)
        | .ok (some len,k) =>
          match argvLoop uargv fuel k (i+1) with
          | .error e => .error e
          | .ok (none,k) => .ok (none,k)
          | .ok (some argv,k) => .ok (some ((uarg,len) :: argv),k)

/-- `%s`: every byte up to the zero is read. -/
def printString (k : State) (addr : Nat) : Nat → Nat → Except Fault State
  | 0, _ => .error .hang
  | fuel+1, i =>
    match touch k (addr + i) 1 with
    | .error e => .error e
    | .ok k => if userByte k (addr + i) = 0 then .ok k else printString k addr fuel (i+1)

/-- The array `argv` has five elements, the last of which can only be null. With
no argument, `argv[0]` is null and printed all the same. -/
def sysExec (data : Nat) (k : State) : Except Fault (Int × State) :=
  match argstr k 0 with
  | .error e => .error e
  | .ok (none,k) => .ok (-1,k)
  | .ok (some path,k) =>
    match argint k 1 with
    | .error e => .error e
    | .ok (none,k) => .ok (-1,k)
    | .ok (some uargv,k) =>
      match argvLoop uargv maxarg k 0 with
      | .error e => .error e
      | .ok (none,k) => .ok (-1,k)
      | .ok (some argv,k) =>
        match printString k path.1 4294967296 0 with
        | .error e => .error e
        | .ok k =>
          match printString k ((argv.head?.map Prod.fst).getD 0) 4294967296 0 with
          | .error e => .error e
          | .ok k => exec data k path argv

inductive Call
  | open_ | mknod | read | write | close | fstat | exec
deriving DecidableEq, Repr

/-- `dispatcher`; the result goes to `eax`. -/
def dispatch (data : Nat) (k : State) : Call → Except Fault (Int × State)
  | .open_ => sysOpen k
  | .mknod => sysMknod k
  | .read => sysRead k
  | .write => sysWrite k
  | .close => sysClose k
  | .fstat => sysFstat k
  | .exec => sysExec data k

end Lxos.Kernel
