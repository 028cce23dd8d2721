import Lxos.Fs.State
import Lxos.Library.Ownership
import Mathlib.Data.Nat.Basic

/-! A file system seen as a whole: an inode for each number and the blocks of
the disk. This is what the operations of `fs.c` change; where the inodes are
stored, in a cache slot or in the table, is of no concern here. -/
namespace Lxos.Fs
open Lxos.Bytes Lxos.Ownership

structure Volume where
  sb : Superblock
  inode : Nat → Dinode
  block : Nat → Block

namespace Dinode

/-- The block at position `p` of an inode, `0` for none: positions below 140 are
file blocks, position 140 is the indirect block. -/
def refAt (d : Dinode) (block : Nat → Block) (p : Nat) : Nat :=
  if p < 12 then d.addr p
  else if p < 140 then
    if d.addr 12 = 0 then 0 else (le32 (block (d.addr 12)) (4 * (p - 12))).toNat
  else if p = 140 then d.addr 12
  else 0

/-- Only the indirect block matters to the block map. -/
theorem refAt_congr {d e : Dinode} {block block' : Nat → Block} (addrs : d.addrs = e.addrs)
    (same : d.addr 12 ≠ 0 → block' (d.addr 12) = block (d.addr 12)) (p : Nat) :
    e.refAt block' p = d.refAt block p := by
  have addr (i : Nat) : e.addr i = d.addr i := by simp only [Dinode.addr,addrs]
  unfold refAt
  simp only [addr]
  by_cases absent : d.addr 12 = 0
  · simp only [absent,if_true]
  · rw [same absent]

end Dinode

namespace Volume

def ref (v : Volume) (p : Nat × Nat) : Nat :=
  if p.1 < v.sb.slots then (v.inode p.1).refAt v.block p.2 else 0

/-- Bit `b` of the bitmap. -/
def marked (v : Volume) (b : Nat) : Prop :=
  (v.block (v.sb.bblock b) (b % bpb / 8)).getLsbD (b % 8) = true

/-- The address that `bmap` answers with: `-1` out of range. -/
def addr (v : Volume) (k bn : Nat) : Nat := if bn < 140 then v.ref (k,bn) else 4294967295

/-- Byte `off` of the file, zero in a hole. -/
def byte (v : Volume) (k off : Nat) : Byte :=
  if v.addr k (off / 512) = 0 then 0 else v.block (v.addr k (off / 512)) (off % 512)

/-- Every block index below the size has an address. -/
def Filled (v : Volume) (k : Nat) : Prop :=
  ∀ bn, bn * 512 < (v.inode k).size.toNat → bn < 140 ∧ v.ref (k,bn) ≠ 0

/-- Ownership of blocks, `used` telling the allocated ones: metadata is used, an
inode's blocks are used blocks of the data area, and no block has two owners. -/
structure Owned (used : Nat → Prop) (v : Volume) : Prop where
  layout : v.sb.Layout
  reserved : ∀ b < v.sb.nmeta, used b
  range : ∀ p, v.ref p ≠ 0 → v.sb.nmeta ≤ v.ref p ∧ v.ref p < v.sb.size
  held : ∀ p, v.ref p ≠ 0 → used (v.ref p)
  exclusive : Exclusive v.ref

/-- Ownership as the bitmap records it. -/
def Sound (v : Volume) : Prop := Owned v.marked v

def setInode (v : Volume) (k : Nat) (d : Dinode) : Volume := { v with inode := Function.update v.inode k d }

def setBlock (v : Volume) (b : Nat) (data : Block) : Volume := { v with block := Function.update v.block b data }

end Volume

namespace Superblock

theorem nmeta_eq (sb : Superblock) : sb.nmeta = sb.bmapstart + (sb.size / 4096 + 1) := rfl

theorem slots_eq (sb : Superblock) : sb.slots = (sb.bmapstart - sb.inodestart) * 8 := rfl

namespace Layout
variable {sb : Superblock}

theorem bblock_eq (layout : sb.Layout) {b : Nat} (h : b < sb.size) :
    sb.bblock b = b / 4096 + sb.bmapstart := by
  have room := layout.room
  have width := layout.width
  rw [nmeta_eq] at room
  exact u32_of_lt (by change b / 4096 + sb.bmapstart < 4294967296; omega)

theorem bblock_range (layout : sb.Layout) {b : Nat} (h : b < sb.size) :
    sb.bmapstart ≤ sb.bblock b ∧ sb.bblock b < sb.nmeta := by
  rw [layout.bblock_eq h,nmeta_eq]
  omega

theorem iblock_eq (layout : sb.Layout) {k : Nat} (h : k < sb.slots) :
    sb.iblock k = k / 8 + sb.inodestart := by
  have room := layout.room
  have width := layout.width
  rw [nmeta_eq] at room
  rw [slots_eq] at h
  exact u32_of_lt (by change k / 8 + sb.inodestart < 4294967296; omega)

theorem iblock_range (layout : sb.Layout) {k : Nat} (h : k < sb.slots) :
    sb.inodestart ≤ sb.iblock k ∧ sb.iblock k < sb.bmapstart := by
  rw [layout.iblock_eq h]
  rw [slots_eq] at h
  omega

/-- Distinct bits of the bitmap are in distinct places. -/
theorem bit_injective (layout : sb.Layout) {b c : Nat} (hb : b < sb.size) (hc : c < sb.size)
    (block : sb.bblock b = sb.bblock c) (byte : b % 4096 / 8 = c % 4096 / 8)
    (bit : b % 8 = c % 8) : b = c := by
  rw [layout.bblock_eq hb,layout.bblock_eq hc] at block
  omega

/-- Distinct dinodes are in distinct places. -/
theorem inode_disjoint (layout : sb.Layout) {k l : Nat} (hk : k < sb.slots) (hl : l < sb.slots)
    (distinct : k ≠ l) (block : sb.iblock k = sb.iblock l) :
    l % 8 * 64 + 64 ≤ k % 8 * 64 ∨ k % 8 * 64 + 64 ≤ l % 8 * 64 := by
  rw [layout.iblock_eq hk,layout.iblock_eq hl] at block
  omega

end Layout
end Superblock

end Lxos.Fs
