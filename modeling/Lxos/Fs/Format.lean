import Lxos.Library.Bytes
import Mathlib.Data.Fintype.Pi

/-! The on-disk format of `fs.h`, `file.h` and `stat.h`: superblock, inode table
and bitmap, as bytes of 512-byte blocks. Numbers of the superblock are naturals;
fields of an inode have the machine widths of `struct dinode`. -/
namespace Lxos.Fs
open Lxos.Bytes

abbrev bsize : Nat := 512
abbrev ndirect : Nat := 12
abbrev nindirect : Nat := 128
abbrev maxfile : Nat := 140
abbrev ipb : Nat := 8
abbrev bpb : Nat := 4096
abbrev dirsiz : Nat := 14
abbrev direntSize : Nat := 16
abbrev rootino : Nat := 1
abbrev rootdev : Nat := 1
abbrev ninode : Nat := 50
abbrev ndev : Nat := 10

abbrev tDir : BitVec 16 := 1
abbrev tFile : BitVec 16 := 2
abbrev tDev : BitVec 16 := 3

/-- Reduction of `uint` arithmetic. -/
def u32 (n : Nat) : Nat := n % 4294967296

/-- A `uint` returned as `int`. -/
def int32 (n : Nat) : Int := if n < 2147483648 then n else n - 4294967296

theorem u32_of_lt {n : Nat} (h : n < 4294967296) : u32 n = n := Nat.mod_eq_of_lt h

theorem u32_lt (n : Nat) : u32 n < 4294967296 := Nat.mod_lt _ (by omega)

theorem int32_of_lt {n : Nat} (h : n < 2147483648) : int32 n = n := if_pos h

abbrev Block := Buffer

structure Superblock where
  size : Nat
  nblocks : Nat
  ninodes : Nat
  nlog : Nat
  logstart : Nat
  inodestart : Nat
  bmapstart : Nat
deriving DecidableEq, Repr

namespace Superblock

def decode (b : Block) : Superblock :=
  ⟨(le32 b 0).toNat,(le32 b 4).toNat,(le32 b 8).toNat,(le32 b 12).toNat,
    (le32 b 16).toNat,(le32 b 20).toNat,(le32 b 24).toNat⟩

/-- `IBLOCK(i, sb)`. -/
def iblock (sb : Superblock) (i : Nat) : Nat := u32 (i / ipb + sb.inodestart)

/-- `BBLOCK(b, sb)`. -/
def bblock (sb : Superblock) (b : Nat) : Nat := u32 (b / bpb + sb.bmapstart)

/-- The first block after the bitmap: boot block, superblock, log, inodes and
bitmap lie below it. -/
def nmeta (sb : Superblock) : Nat := sb.bmapstart + (sb.size / bpb + 1)

/-- The inodes that fit between `inodestart` and `bmapstart`. -/
def slots (sb : Superblock) : Nat := (sb.bmapstart - sb.inodestart) * ipb

/-- The areas of a disk do not overlap and hold what the superblock counts. -/
structure Layout (sb : Superblock) : Prop where
  super : 1 < sb.inodestart
  table : sb.inodestart < sb.bmapstart
  count : sb.ninodes ≤ sb.slots
  room : sb.nmeta ≤ sb.size
  width : sb.size < 4294967296

end Superblock

/-- `struct dinode`. -/
structure Dinode where
  type : BitVec 16
  major : BitVec 16
  minor : BitVec 16
  nlink : BitVec 16
  size : BitVec 32
  addrs : Fin 13 → BitVec 32
deriving DecidableEq

namespace Dinode

@[ext] theorem ext {a b : Dinode} (type : a.type = b.type) (major : a.major = b.major)
    (minor : a.minor = b.minor) (nlink : a.nlink = b.nlink) (size : a.size = b.size)
    (addrs : a.addrs = b.addrs) : a = b := by
  cases a; cases b; simp_all

/-- All bytes zero, as `memset(dip, 0, sizeof(*dip))` leaves it. -/
def zero : Dinode := ⟨0,0,0,0,0,fun _ => 0⟩

/-- `addrs[i]`. -/
def addr (d : Dinode) (i : Nat) : Nat := if h : i < 13 then (d.addrs ⟨i,h⟩).toNat else 0

/-- `addrs[i] = v`. -/
def setAddr (d : Dinode) (i v : Nat) : Dinode :=
  { d with addrs := fun j => if j.val = i then BitVec.ofNat 32 v else d.addrs j }

/-- The dinode at byte `o` of a block. -/
def decode (b : Block) (o : Nat) : Dinode where
  type := le16 b o
  major := le16 b (o+2)
  minor := le16 b (o+4)
  nlink := le16 b (o+6)
  size := le32 b (o+8)
  addrs := fun i => le32 b (o+12+4*i)

/-- The field assignments of `iupdate`. -/
def encode (d : Dinode) (b : Block) (o : Nat) : Block :=
  let b := put16 b o d.type
  let b := put16 b (o+2) d.major
  let b := put16 b (o+4) d.minor
  let b := put16 b (o+6) d.nlink
  let b := put32 b (o+8) d.size
  blit b (o+12) 52 (words (fun i => BitVec.ofNat 32 (d.addr i)))

@[simp] theorem addr_zero (i : Nat) : zero.addr i = 0 := by simp [addr,zero]

theorem addr_setAddr (d : Dinode) (i j v : Nat) (bound : j < 13) (width : v < 4294967296) :
    (d.setAddr i v).addr j = if j = i then v else d.addr j := by
  by_cases same : j = i
  · subst j
    simp only [addr,setAddr,bound,dif_pos,if_true,BitVec.toNat_ofNat]
    omega
  · simp [addr,setAddr,same]

@[simp] theorem setAddr_type (d : Dinode) (i v : Nat) : (d.setAddr i v).type = d.type := rfl
@[simp] theorem setAddr_nlink (d : Dinode) (i v : Nat) : (d.setAddr i v).nlink = d.nlink := rfl
@[simp] theorem setAddr_size (d : Dinode) (i v : Nat) : (d.setAddr i v).size = d.size := rfl

/-- An inode written by `iupdate` is read back by `ilock`. -/
theorem decode_encode (d : Dinode) (b : Block) (o : Nat) : decode (d.encode b o) o = d := by
  have direct (i : Fin 13) : le32 (d.encode b o) (o+12+4*i.val) = d.addrs i := by
    rw [encode,le32_blit_words (fun i => BitVec.ofNat 32 (d.addr i)) (by omega)]
    simp [addr]
  have keep16 (b : Block) (p : Nat) (v : BitVec 16) (q : Nat) (h : p + 2 ≤ q) :
      le16 (put16 b q v) p = le16 b p := le16_blit_outside (Or.inl h)
  have keep32 (b : Block) (p : Nat) (v : BitVec 32) (q : Nat) (h : p + 2 ≤ q) :
      le16 (put32 b q v) p = le16 b p := le16_blit_outside (Or.inl h)
  ext1
  · simp only [decode,encode]
    rw [le16_blit_outside (by omega),keep32 _ _ _ _ (by omega),keep16 _ _ _ _ (by omega),
      keep16 _ _ _ _ (by omega),keep16 _ _ _ _ (by omega),le16_put16]
  · simp only [decode,encode]
    rw [le16_blit_outside (by omega),keep32 _ _ _ _ (by omega),keep16 _ _ _ _ (by omega),
      keep16 _ _ _ _ (by omega),le16_put16]
  · simp only [decode,encode]
    rw [le16_blit_outside (by omega),keep32 _ _ _ _ (by omega),keep16 _ _ _ _ (by omega),le16_put16]
  · simp only [decode,encode]
    rw [le16_blit_outside (by omega),keep32 _ _ _ _ (by omega),le16_put16]
  · simp only [decode,encode]
    rw [le32_blit_outside (by omega),le32_put32]
  · exact funext direct

theorem encode_outside (d : Dinode) (b : Block) (o i : Nat) (h : i < o ∨ o + 64 ≤ i) :
    d.encode b o i = b i := by
  simp only [encode,put16,put32]
  repeat rw [blit_outside (by omega)]

theorem decode_congr {a b : Block} {o p : Nat} (same : ∀ i < 64, a (o + i) = b (p + i)) :
    decode a o = decode b p := by
  have half (j : Nat) (h : j + 2 ≤ 64) : le16 a (o + j) = le16 b (p + j) :=
    le16_congr (fun i bound => by rw [Nat.add_assoc,Nat.add_assoc]; exact same _ (by omega))
  have word (j : Nat) (h : j + 4 ≤ 64) : le32 a (o + j) = le32 b (p + j) :=
    le32_congr (fun i bound => by rw [Nat.add_assoc,Nat.add_assoc]; exact same _ (by omega))
  ext1
  · exact half 0 (by omega)
  · exact half 2 (by omega)
  · exact half 4 (by omega)
  · exact half 6 (by omega)
  · exact word 8 (by omega)
  · funext i
    have := word (12 + 4 * i.val) (by omega)
    simpa only [decode,Nat.add_assoc] using this

/-- A dinode other than the one written keeps its value. -/
theorem decode_encode_other (d : Dinode) (b : Block) (o p : Nat) (h : p + 64 ≤ o ∨ o + 64 ≤ p) :
    decode (d.encode b o) p = decode b p :=
  decode_congr (fun _ _ => encode_outside _ _ _ _ (by omega))

@[simp] theorem decode_zeros (o : Nat) : decode zeros o = zero := rfl

end Dinode

end Lxos.Fs
