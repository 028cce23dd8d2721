import Lxos.Fs.Inode

/-! `readi` and `writei` of `fs.c`. The loops keep `tot` and `off` as in the
source; a destination or source buffer is indexed from the start of the call. -/
namespace Lxos.Fs
open Lxos.Bytes

/-- A line of the device switch table. -/
structure Devsw where
  read : Option (Buffer → Nat → Int × Buffer)
  write : Option (Buffer → Nat → Int)

abbrev console : Nat := 1

/-- The table as `screeninit` leaves it before the first process runs. `screenewrite` shows the
bytes and returns their number; the inode that it unlocks and locks again stays as it is. -/
def devsw (major : Nat) : Devsw := ⟨none,if major = console then some fun _ n => int32 n else none⟩

def readiLoop (ip : Slot) (n : Nat) : Nat → FsState → Buffer → Nat → Nat → Buffer × FsState
  | 0, st, dst, _, _ => (dst,st)
  | fuel+1, st, dst, tot, off =>
    if tot < n then
      let dev := (st.icache ip).dev
      let (addr,st) := bmap st ip (off / bsize)
      let st := bread st dev addr
      let m := min (n - tot) (bsize - off % bsize)
      let data := st.disk dev addr
      let dst := blit dst tot m (fun i => data (off % bsize + i))
      readiLoop ip n fuel (brelse st dev addr) dst (tot + m) (off + m)
    else (dst,st)

def readi (st : FsState) (ip : Slot) (dst : Buffer) (off n : Nat) : Int × Buffer × FsState :=
  let i := st.icache ip
  if i.type = tDev then
    if i.major.toInt < 0 ∨ i.major.toInt ≥ ndev then (-1,dst,st)
    else
      match (devsw i.major.toNat).read with
      | none => (-1,dst,st)
      | some read => ((read dst n).1,(read dst n).2,st)
  else if off > i.size.toNat ∨ u32 (off + n) < off then (-1,dst,st)
  else
    let n := if u32 (off + n) > i.size.toNat then i.size.toNat - off else n
    let (dst,st) := readiLoop ip n n st dst 0 off
    (int32 n,dst,st)

def writeiLoop (ip : Slot) (src : Buffer) (n : Nat) : Nat → FsState → Nat → Nat → Nat × FsState
  | 0, st, _, off => (off,st)
  | fuel+1, st, tot, off =>
    if tot < n then
      let dev := (st.icache ip).dev
      let (addr,st) := bmap st ip (off / bsize)
      let st := bread st dev addr
      let m := min (n - tot) (bsize - off % bsize)
      let st := bwrite st dev addr
        (blit (st.disk dev addr) (off % bsize) m (fun i => src (tot + i)))
      writeiLoop ip src n fuel (brelse st dev addr) (tot + m) (off + m)
    else (off,st)

def writei (st : FsState) (ip : Slot) (src : Buffer) (off n : Nat) : Int × FsState :=
  let i := st.icache ip
  if i.type = tDev then
    if i.major.toInt < 0 ∨ i.major.toInt ≥ ndev then (-1,st)
    else
      match (devsw i.major.toNat).write with
      | none => (-1,st)
      | some write => (write src n,st)
  else if off > i.size.toNat ∨ u32 (off + n) < off then (-1,st)
  else if u32 (off + n) > maxfile * bsize then (-1,st)
  else
    let (off,st) := writeiLoop ip src n n st 0 off
    let st :=
      if n > 0 ∧ off > (st.icache ip).size.toNat then
        iupdate (st.setDinode ip { (st.icache ip).toDinode with size := BitVec.ofNat 32 off }) ip
      else st
    (int32 n,st)

end Lxos.Fs
