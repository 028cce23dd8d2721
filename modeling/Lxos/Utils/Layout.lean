import Lxos.Utils.Mkfs
import Lxos.Fs.Allocation

/-! The image as a volume. Blocks are taken in ascending order, so that the used
ones are those below `freeblock`; each is recorded at one position of one inode. -/
namespace Lxos.Utils
open Lxos.Bytes Lxos.Fs Lxos.Ownership

theorem layout : sb.Layout := ⟨by decide,by decide,by decide,by decide,by decide⟩

theorem position_of_lt {sec : Nat} (small : sec < 8388608) : position sec = sec := by
  change sec * 512 % 4294967296 / 512 = sec
  omega

/-- Dinode `k` of the image. -/
def Mkfs.inode (s : Mkfs) (k : Nat) : Dinode := Dinode.decode (s.sectors (sb.iblock k)) (inodeOffset k)

def Mkfs.volume (s : Mkfs) : Volume := ⟨sb,fun k => if k < sb.slots then s.inode k else Dinode.zero,s.sectors⟩

theorem Mkfs.volume_inode {s : Mkfs} {k : Nat} (bound : k < 208) : s.volume.inode k = s.inode k := if_pos bound

/-- The positions that a file of `m` bytes uses. -/
def needed (m p : Nat) : Prop := p < 140 ∧ p * 512 < m ∨ p = 140 ∧ 6144 < m

def Spans (v : Volume) (k m : Nat) : Prop := ∀ p, v.ref (k,p) ≠ 0 ↔ needed m p

theorem needed_chunk {off m : Nat} (some : 0 < m) (fits : off % 512 + m ≤ 512) (index : off / 512 < 140) (p : Nat) :
    needed (off + m) p ↔ needed off p ∨ p = off / 512 ∨ p = 140 ∧ 12 ≤ off / 512 := by
  unfold needed
  omega

/-- The blocks of the image are those of the volume `v`; its inodes may be on
their way to the disk. -/
structure Laid (s : Mkfs) (v : Volume) : Prop where
  sb : v.sb = sb
  block : v.block = s.sectors
  size : s.size = 1000
  high : s.freeblock ≤ 1000
  owned : v.Owned (· < s.freeblock)
  blank : ∀ b, s.freeblock ≤ b → s.sectors b = zeros
  exact : ∀ b, 59 ≤ b → b < s.freeblock → ∃ p, v.ref p = b

section laid
variable {s s' : Mkfs} {v w : Volume} {k p : Nat}

theorem Laid.low (laid : Laid s v) : 59 ≤ s.freeblock := by
  have bitmap := laid.owned.reserved 58 (by rw [laid.sb]; decide)
  exact bitmap

theorem Laid.range (laid : Laid s v) {q : Nat × Nat} (there : v.ref q ≠ 0) : 59 ≤ v.ref q ∧ v.ref q < s.freeblock := by
  have data := (laid.owned.range q there).1
  rw [laid.sb] at data
  exact ⟨data,laid.owned.held q there⟩

/-- The next block becomes position `p` of inode `k`. -/
theorem Laid.claim (laid : Laid s v)
    (claim : Volume.Claim (· < s.freeblock) (· < s.freeblock + 1) k p s.freeblock v w)
    (room : s.freeblock < 1000) (block : w.block = s'.sectors) (size : s'.size = 1000)
    (next : s'.freeblock = s.freeblock + 1) : Laid s' w where
  sb := claim.sb.trans laid.sb
  block := block
  size := size
  high := by omega
  owned := next ▸ claim.owned laid.owned
  blank := by
    intro b high
    have apart : b ≠ v.ref (k,140) := by
      rintro rfl
      have := (laid.range (q := (k,140)) (by have := laid.low; omega)).2
      omega
    have low := laid.low
    rw [← block,claim.data b (by rw [laid.sb]; change 59 ≤ b; omega) (by omega) apart,laid.block]
    exact laid.blank b (by omega)
  exact := by
    intro b low high
    rcases Nat.lt_or_ge b s.freeblock with old | new
    · obtain ⟨q,held⟩ := laid.exact b low old
      refine ⟨q,?_⟩
      rw [claim.ref,Function.update_of_ne]
      · exact held
      · rintro rfl
        rw [claim.empty] at held
        omega
    · refine ⟨(k,p),?_⟩
      rw [claim.ref,Function.update_self]
      omega

theorem Laid.claim_addr (laid : Laid s v) (place : k < 208) (room : s.freeblock < 1000) {i : Nat}
    (index : p = i ∧ i < 12 ∨ p = 140 ∧ i = 12) (empty : v.ref (k,p) = 0) :
    Volume.Claim (· < s.freeblock) (· < s.freeblock + 1) k p s.freeblock v
      (v.setInode k ((v.inode k).setAddr i s.freeblock)) where
  sb := rfl
  fresh := lt_irrefl _
  bound := by rw [laid.sb]; exact room
  place := by rw [laid.sb]; exact place
  empty := empty
  ref := by
    have inside : k < v.sb.slots := by rw [laid.sb]; exact place
    rcases index with ⟨rfl,low⟩ | ⟨rfl,rfl⟩
    · exact Volume.ref_setAddr v inside low (by omega)
    · exact Volume.ref_setIndirect v inside (by omega) empty (by rw [laid.block]; exact laid.blank _ (le_refl _))
  marks := fun c _ => by omega
  cleared := by
    change v.block _ = zeros
    rw [laid.block]
    exact laid.blank _ (le_refl _)
  table := fun _ _ => rfl
  data := fun _ _ _ _ => rfl
  other := fun _ away => Function.update_of_ne away _ _
  attrs := ⟨_,Function.update_self _ _ _⟩

theorem Laid.claim_entry (laid : Laid s v) (room : s.freeblock < 1000) {j : Nat} (index : j < 128)
    (present : v.ref (k,140) ≠ 0) (empty : v.ref (k,12+j) = 0) :
    Volume.Claim (· < s.freeblock) (· < s.freeblock + 1) k (12+j) s.freeblock v
      (v.setBlock (v.ref (k,140)) (put32 (v.block (v.ref (k,140))) (4*j) (BitVec.ofNat 32 s.freeblock))) := by
  have range := laid.range present
  have elsewhere (c : Nat) (h : c ≠ v.ref (k,140)) (data : Block) : (v.setBlock (v.ref (k,140)) data).block c = v.block c :=
    Function.update_of_ne h _ _
  refine ⟨rfl,lt_irrefl _,by rw [laid.sb]; exact room,(Volume.ref_position present).1,empty,?_,fun c _ => by omega,
    ?_,fun c h => elsewhere c ?_ _,fun c _ _ h => elsewhere c h _,fun _ _ => rfl,⟨_,rfl⟩⟩
  · exact Volume.ref_setEntry v laid.owned.exclusive index (by omega) present
  · rw [elsewhere _ (by omega),laid.block]
    exact laid.blank _ (le_refl _)
  · rw [laid.sb] at h
    change c < 58 at h
    omega

/-- A write to a block that holds file data. -/
theorem Laid.store (laid : Laid s v) (index : p < 140) (there : v.ref (k,p) ≠ 0) {data : Block}
    (sectors : s'.sectors = Function.update s.sectors (v.ref (k,p)) data) (size : s'.size = 1000)
    (same : s'.freeblock = s.freeblock) : Laid s' (v.setBlock (v.ref (k,p)) data) where
  sb := laid.sb
  block := by rw [sectors,← laid.block]; rfl
  size := size
  high := same ▸ laid.high
  owned := same ▸ Volume.store_owned laid.owned index
  blank := by
    intro b high
    have := (laid.range there).2
    rw [sectors,Function.update_of_ne (by omega)]
    exact laid.blank b (by omega)
  exact := by
    intro b low high
    rw [Volume.store_ref laid.owned index]
    exact laid.exact b low (by omega)

end laid

end Lxos.Utils
