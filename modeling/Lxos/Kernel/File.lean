import Lxos.Kernel.State

/-! Open files: `file.c`. -/
namespace Lxos.Kernel
open Lxos.Bytes Lxos.Fs

/-- The first entry of the table without references. -/
def filealloc (k : State) : Option (FileId × State) :=
  match (List.finRange nfile).find? (fun f => (k.file f).ref == 0) with
  | some f => some (f,k.setFile f { k.file f with ref := 1 })
  | none => none

def fileclose (k : State) (f : FileId) : State :=
  let k := k.setFile f { k.file f with ref := (k.file f).ref - 1 }
  if (k.file f).ref > 0 then k
  else
    let ff := k.file f
    let k := k.setFile f { ff with ref := 0,type := .none }
    if ff.type = .inode then { k with fs := iput k.fs ff.ip } else k

def filestat (k : State) (f : FileId) : Int × Option Stat × State :=
  let v := k.file f
  if v.type = .inode then
    let fs := ilock k.fs v.ip
    (0,some (stati (fs.icache v.ip)),{ k with fs := iunlock fs v.ip })
  else (-1,none,k)

/-- The bytes read, and how many: they are stored at the caller's address. -/
def fileread (k : State) (f : FileId) (addr : Nat) (n : Nat) : Int × State :=
  let v := k.file f
  if v.readable = false then (-1,k)
  else if v.type = .inode then
    let fs := ilock k.fs v.ip
    let (r,dst,fs) := readi fs v.ip (userMem k addr) v.off n
    let k := { k with fs := fs }
    let k := storeUser k addr dst r.toNat
    let k := if r > 0 then k.setFile f { v with off := u32 (v.off + r.toNat) } else k
    (r,{ k with fs := iunlock k.fs v.ip })
  else (-1,{ k with fs := kprint k.fs .fileread })

/-- `((MAXOPBLOCKS-1-1-2) / 2) * 512`. -/
abbrev writeMax : Nat := 1536

/-- The loop of `filewrite`, `i` bytes being written. -/
def filewriteLoop (f : FileId) (addr n : Nat) : Nat → State → Nat → Except Fault (Int × State)
  | 0, _, _ => .error .hang
  | fuel+1, k, i =>
    if i < n then
      let v := k.file f
      let n1 := min (n - i) writeMax
      let fs := ilock k.fs v.ip
      let (r,fs) := writei fs v.ip (userMem k (addr + i)) v.off n1
      let k := { k with fs := fs }
      let k := if r > 0 then k.setFile f { v with off := u32 (v.off + r.toNat) } else k
      let k := { k with fs := iunlock k.fs v.ip }
      if r < 0 then .ok (-1,k)
      else
        let k := if r ≠ n1 then { k with fs := kprint k.fs .shortWrite } else k
        filewriteLoop f addr n fuel k (i + r.toNat)
    else .ok (if i = n then n else -1,k)

def filewrite (k : State) (f : FileId) (addr n : Nat) : Except Fault (Int × State) :=
  let v := k.file f
  if v.writable = false then .ok (-1,k)
  else if v.type = .inode then filewriteLoop f addr n (n+1) k 0
  else .ok (-1,{ k with fs := kprint k.fs .filewrite })

end Lxos.Kernel
