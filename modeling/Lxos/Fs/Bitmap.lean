import Lxos.Fs.State

/-! `readsb`, `bzero`, `balloc` and `bfree` of `fs.c`. -/
namespace Lxos.Fs
open Lxos.Bytes

/-- `1 << (bi % 8)`. -/
def bitMask (bi : Nat) : Byte := 1#8 <<< (bi % 8)

def readsb (st : FsState) (dev : Nat) : FsState :=
  let st := bread st dev 1
  let st := { st with sb := Superblock.decode (st.disk dev 1) }
  brelse st dev 1

def bzero (st : FsState) (dev bno : Nat) : FsState :=
  let st := bread st dev bno
  let st := bwrite st dev bno zeros
  brelse st dev bno

/-- The inner loop of `balloc`: the first clear bit from `bi` on, within the
block and below `sb.size`. -/
def ballocBits (data : Block) (b size : Nat) : Nat → Nat → Option Nat
  | 0, _ => none
  | fuel+1, bi =>
    if b + bi < size then
      if data (bi / 8) &&& bitMask bi = 0 then some bi else ballocBits data b size fuel (bi+1)
    else none

/-- The outer loop of `balloc`. The failure value is the `uint` of `-1`. -/
def ballocBlocks (dev : Nat) : Nat → FsState → Nat → Nat × FsState
  | 0, st, _ => (4294967295,kprint st .ballocOut)
  | fuel+1, st, b =>
    if b < st.sb.size then
      let bno := st.sb.bblock b
      let st := bread st dev bno
      let data := st.disk dev bno
      match ballocBits data b st.sb.size bpb 0 with
      | some bi =>
        let st := bwrite st dev bno (blit data (bi / 8) 1 (fun _ => data (bi / 8) ||| bitMask bi))
        let st := brelse st dev bno
        (b + bi,bzero st dev (b + bi))
      | none => ballocBlocks dev fuel (brelse st dev bno) (b + bpb)
    else (4294967295,kprint st .ballocOut)

def balloc (st : FsState) (dev : Nat) : Nat × FsState :=
  ballocBlocks dev (st.sb.size / bpb + 1) st 0

def bfree (st : FsState) (dev b : Nat) : FsState :=
  let st := readsb st dev
  let bno := st.sb.bblock b
  let st := bread st dev bno
  let bi := b % bpb
  let st := if st.disk dev bno (bi / 8) &&& bitMask bi = 0 then kprint st .freeingFree else st
  let data := st.disk dev bno
  let st := bwrite st dev bno (blit data (bi / 8) 1 (fun _ => data (bi / 8) &&& ~~~bitMask bi))
  brelse st dev bno

end Lxos.Fs
