import Lxos.Utils.ReadBack
import Mathlib.Order.Interval.Finset.Nat

/-! Holes in a fresh image. The size of the root directory is rounded up past its
last block when its entries fill a whole number of blocks; and inode 208 lies in the
bitmap, which is written last. -/
namespace Lxos.Utils
open Lxos.Bytes Lxos.Fs

/-- What the kernel relies on in a fresh image. -/
structure Complete (image : Mkfs) : Prop where
  /-- Every block index below the size of an inode has an address. -/
  addressed : ∀ k, rootino ≤ k → k < image.freeinode → ∀ bn, bn * 512 < (image.inode k).size.toNat →
    bn < 140 ∧ (image.inode k).refAt image.sectors bn ≠ 0
  /-- Reading allocates no block. -/
  reads : ∀ st ip, OnDisk rootdev (Superblock.decode (image.sectors 1)) image.sectors st → Named rootdev ip st →
    rootino ≤ (st.icache ip).inum → (st.icache ip).inum < image.freeinode → ∀ dst off n, n < 4294967296 →
      Idle (ilock st ip) (readi (ilock st ip) ip dst off n).2.2
  /-- A new entry of the root directory is where the dinode on the disk says. -/
  links : ∀ st dp, OnDisk rootdev (Superblock.decode (image.sectors 1)) image.sectors st → Named rootdev dp st →
    (st.icache dp).inum = rootino → ∀ name inum st', dirlink (ilock st dp) dp name inum = .ok (0,st') →
      st'.exhausted = false → ∃ i, 16 * i < (st'.table rootdev rootino).size.toNat ∧
        (st'.table rootdev rootino).refAt (st'.disk rootdev) (16 * i / 512) ≠ 0 ∧
        ∀ j < 16, st'.disk rootdev ((st'.table rootdev rootino).refAt (st'.disk rootdev) (16 * i / 512)) (16 * i % 512 + j) =
          direntBytes name inum j

section complete
variable {files : List Input} {image s : Mkfs}

theorem volume_ref {k : Nat} (bound : k < 208) (p : Nat) : image.volume.ref (k,p) = (image.inode k).refAt image.sectors p := by
  have inode := Mkfs.volume_inode (s := image) bound
  unfold Volume.ref
  rw [if_pos (by exact bound),inode]
  rfl

/-- Without a hole at the end of the root directory there is none. -/
theorem filled_image (lists : Lists files s) (finished : Finished files.length s image) (few : files.length ≤ 206)
    (ragged : (files.length + 2) % 32 ≠ 0) {k : Nat} (root : rootino ≤ k) (taken : k < files.length + 2) :
    image.volume.Filled k := by
  change 1 ≤ k at root
  intro bn less
  rw [finished.refs lists (by omega)]
  by_cases here : k = rootino
  · subst k
    rw [finished.root_size few] at less
    rw [lists.size few]
    unfold rootSize at less
    unfold needed
    omega
  · have number : k - 2 + 2 = k := by
      change k ≠ 1 at here
      omega
    have h : k - 2 < files.length := by omega
    obtain ⟨_,_,size⟩ := finished.file lists h
    obtain ⟨short,addrs,inode⟩ := lists.file (k - 2) h
    rw [number] at size inode
    rw [size] at less
    rw [inode,BitVec.toNat_ofNat,Nat.mod_eq_of_lt (by omega)]
    unfold needed
    omega

theorem complete (lists : Lists files s) (finished : Finished files.length s image) (few : files.length ≤ 206)
    (ragged : (files.length + 2) % 32 ≠ 0) (next : image.freeinode = files.length + 2) : Complete image where
  addressed := by
    intro k root taken bn less
    have filled := filled_image lists finished few ragged root (by omega) bn
    rw [Mkfs.volume_inode (by omega),volume_ref (by omega)] at filled
    exact filled less
  reads := by
    intro st ip on named root taken dst off n width
    obtain ⟨copy,ready,number⟩ := OnDisk.copy finished on named
    refine readi_idle ready ?_ dst off width
    rw [number,finished.volume (on.loaded named)]
    exact filled_image lists finished few ragged root (by omega)
  links := by
    intro st dp on named root name inum st' ok enough
    have readable := root_readable lists finished few on named root
    obtain ⟨copy,ready,number⟩ := OnDisk.copy finished on named
    have on₁ := on.loaded named
    rw [root] at copy number
    have size : ((ilock st dp).icache dp).size.toNat = rootSize files.length := by rw [copy,finished.root_size few]
    have whole : Readable rootdev dp (rootSize files.length) (ilock st dp) := by
      refine ⟨ready,readable.type,readable.enough,fun bn less => ?_,le_of_eq size.symm,?_⟩
      · rw [finished.volume on₁,number]
        refine filled_image lists finished few ragged (le_refl _) (by change 1 < _; omega) bn ?_
        rw [finished.root_size few]
        exact less
      · unfold rootSize
        omega
    have small : rootSize files.length + 16 ≤ 71680 := by
      unfold rootSize
      omega
    obtain ⟨st₁,i,idle,place,wrote⟩ := dirlink_wrote whole size small ok enough
    have on₂ := on₁.idle idle
    have ready₂ := ready.idle idle
    have number₂ : (st₁.icache dp).inum = rootino := by rw [idle.icache,number]
    have ready' := wrote.ready ready₂
    have inum' : (st'.icache dp).inum = rootino := (wrote.change.inum dp).trans number₂
    have copy' := FsState.volume_locked ready'.unique ready'.locked ready'.place
    have saved := wrote.saved (on₂.coherent dp ready₂.locked).symm
    rw [number₂] at saved
    have grown := wrote.size
    have filled := wrote.filled (16 * i / 512)
    rw [number₂] at grown filled
    rw [inum'] at copy'
    rw [copy'] at grown filled
    have inside : 16 * i < (st'.icache dp).size.toNat := by
      rw [grown]
      exact Nat.lt_of_lt_of_le (by change 16 * i < 16 * i + 16; omega) (Nat.le_max_right _ _)
    obtain ⟨index,present⟩ := filled (by omega)
    have ref : (st'.volume rootdev).ref (rootino,16 * i / 512) =
        (st'.table rootdev rootino).refAt (st'.disk rootdev) (16 * i / 512) := by
      unfold Volume.ref
      rw [if_pos (by rw [← inum']; exact ready'.place),copy',saved]
      rfl
    rw [ref] at present
    refine ⟨i,by rw [saved]; exact inside,present,fun j bound => ?_⟩
    have byte := wrote.byte (16 * i + j)
    rw [number₂,if_pos ⟨by omega,by change 16 * i + j < 16 * i + 16; omega⟩,Nat.add_sub_cancel_left] at byte
    rw [← byte,← ref]
    have block := @chunk_bytes (st'.volume rootdev) rootino (16 * i) 16 (by omega)
      (by rw [Volume.addr,if_pos index,ref]; exact present) j bound
    rw [Volume.addr,if_pos index] at block
    exact block

end complete

/-! Inode 208 is the first 64 bytes of the bitmap. -/
section bitmap
variable {n i : Nat}

theorem usedBits_full (h : 8 * i + 8 ≤ n) : usedBits n i = 255 := by
  apply BitVec.eq_of_getLsbD_eq
  intro j small
  have bit := usedBits_bit n (8 * i + j)
  rw [(by omega : (8 * i + j) / 8 = i),(by omega : (8 * i + j) % 8 = j)] at bit
  have all : ∀ j < 8, (255 : Byte).getLsbD j = true := by decide
  rw [bit,all j small]
  exact decide_eq_true (by omega)

theorem usedBits_empty (h : n ≤ 8 * i) : usedBits n i = 0 := by
  apply BitVec.eq_of_getLsbD_eq
  intro j small
  have bit := usedBits_bit n (8 * i + j)
  rw [(by omega : (8 * i + j) / 8 = i),(by omega : (8 * i + j) % 8 = j)] at bit
  have none : (0 : Byte).getLsbD j = false := BitVec.getLsbD_zero
  rw [bit,none]
  exact decide_eq_false (by omega)

theorem usedBits_some (h : 8 * i < n) : usedBits n i ≠ 0 := by
  intro zero
  have bit := usedBits_bit n (8 * i)
  rw [(by omega : 8 * i / 8 = i),(by omega : 8 * i % 8 = 0),zero] at bit
  have none : (0 : Byte).getLsbD 0 = false := by decide
  rw [none] at bit
  exact absurd (of_decide_eq_false bit.symm) (by omega)

theorem le32_toNat (b : Buffer) (o : Nat) : (le32 b o).toNat =
    (b o).toNat + 256 * (b (o+1)).toNat + 65536 * (b (o+2)).toNat + 16777216 * (b (o+3)).toNat := by
  rw [le32,BitVec.toNat_ofNat]
  omega

/-- As a dinode the bitmap has a size, but no first block, or it is too large. -/
theorem bitmap_hole (low : 64 < n) : ∃ bn, bn * 512 < (Dinode.decode (usedBits n) 0).size.toNat ∧
    (bn = 140 ∨ bn = 0 ∧ (Dinode.decode (usedBits n) 0).addr 0 = 0) := by
  have size : (Dinode.decode (usedBits n) 0).size.toNat = (usedBits n 8).toNat + 256 * (usedBits n 9).toNat +
      65536 * (usedBits n 10).toNat + 16777216 * (usedBits n 11).toNat := le32_toNat (usedBits n) 8
  have first : 0 < (usedBits n 8).toNat :=
    Nat.pos_of_ne_zero (fun zero => @usedBits_some n 8 low (BitVec.eq_of_toNat_eq zero))
  rcases Nat.lt_or_ge n 96 with few | many
  · refine ⟨0,?_,Or.inr ⟨rfl,?_⟩⟩
    · rw [size,Nat.zero_mul]
      exact Nat.add_pos_left (Nat.add_pos_left (Nat.add_pos_left first _) _) _
    · have addr : (Dinode.decode (usedBits n) 0).addr 0 = (usedBits n 12).toNat + 256 * (usedBits n 13).toNat +
        65536 * (usedBits n 14).toNat + 16777216 * (usedBits n 15).toNat := le32_toNat (usedBits n) 12
      rw [addr,@usedBits_empty n 12 (by omega),@usedBits_empty n 13 (by omega),@usedBits_empty n 14 (by omega),
        @usedBits_empty n 15 (by omega)]
      rfl
  · have last : (usedBits n 11).toNat = 255 := by
      rw [usedBits_full (by omega)]
      rfl
    refine ⟨140,?_,Or.inl rfl⟩
    rw [size,last]
    exact Nat.lt_of_lt_of_le (by decide) (Nat.le_add_left (16777216 * 255) _)

end bitmap

section holes
variable {files : List Input} {image s : Mkfs}

/-- A root directory of 208 entries has seven blocks. -/
theorem Lists.root_blocks (lists : Lists files s) (full : files.length = 206) : 66 ≤ s.freeblock := by
  have laid := lists.fit.laid
  have there (p : Nat) (h : p < 7) : s.volume.ref (rootino,p) ≠ 0 := by
    rw [lists.fit.spans rootino (by decide),lists.size (by omega)]
    unfold needed
    omega
  have count := Finset.card_le_card_of_injOn (s := Finset.range 7) (t := Finset.Ico 59 s.freeblock)
    (fun p => s.volume.ref (rootino,p)) (fun p h => ?_) (fun p h q _ same => ?_)
  · rw [Finset.card_range,Nat.card_Ico] at count
    omega
  · have range := laid.range (there p (Finset.mem_range.mp h))
    exact Finset.mem_coe.mpr (Finset.mem_Ico.mpr range)
  · exact congrArg Prod.snd (laid.owned.exclusive _ _ (there p (Finset.mem_range.mp h)) same)

/-- From 207 files on there is an inode 208, and the bitmap has more than 64 bits. -/
theorem many_files (many : 207 ≤ files.length) (made : mkfs files = some image) : 66 ≤ image.freeblock := by
  unfold mkfs at made
  split at made
  · cases made
  · rename_i start
    have root := makeRoot_lists start
    split at made
    · cases made
    · rename_i middle
      rw [← List.take_append_drop 206 files] at middle
      obtain ⟨t,first,second⟩ := addFiles_append middle
      have length : (files.take 206).length = 206 := by
        rw [List.length_take]
        omega
      have lists := addFiles_lists root (by rw [length]; decide) first
      rw [List.nil_append] at lists
      have blocks := lists.root_blocks length
      have next := lists.next
      obtain ⟨whole,grow,_⟩ := addFiles_steady (lists.fit.whole (by omega)) second
      have last := (finishRoot_steady whole made).1.grow
      omega

/-- The entries fill their blocks, and the root directory is one block longer. -/
theorem root_hole (few : files.length ≤ 206) (full : (files.length + 2) % 32 = 0) (made : mkfs files = some image) :
    ¬Complete image := by
  intro complete
  have next := (mkfs_steady made).1
  obtain ⟨s,lists,finished⟩ := mkfs_finished few made
  have inode : image.volume.inode rootino = image.inode rootino := Mkfs.volume_inode (by decide)
  have hole := complete.addressed rootino (le_refl _) (by change 1 < _; omega) ((files.length + 2) / 32)
  rw [← @volume_ref image rootino (by decide),← inode,finished.root_size few,finished.refs lists (by decide),
    lists.size few] at hole
  have last := (hole (by unfold rootSize; omega)).2
  unfold needed at last
  omega

/-- The image has no hole exactly if the inodes fit into the table and the entries
of the root directory do not fill its blocks. -/
theorem no_holes (files : List Input) (image : Mkfs) (made : mkfs files = some image) :
    Complete image ↔ files.length ≤ 206 ∧ (files.length + 2) % 32 ≠ 0 := by
  obtain ⟨next,high,bitmap⟩ := mkfs_steady made
  constructor
  · intro complete
    by_contra neither
    rcases Nat.lt_or_ge 206 files.length with many | few
    · have low := many_files many made
      have inode : image.inode 208 = Dinode.decode (usedBits image.freeblock) 0 := by
        rw [← bitmap]
        rfl
      obtain ⟨bn,less,hole⟩ := @bitmap_hole image.freeblock (by omega)
      rw [← inode] at less hole
      obtain ⟨index,there⟩ := complete.addressed 208 (by decide) (by omega) bn less
      rcases hole with rfl | ⟨rfl,absent⟩
      · exact lt_irrefl _ index
      · exact there absent
    · refine root_hole few ?_ made complete
      by_contra ragged
      exact neither ⟨few,ragged⟩
  · rintro ⟨few,ragged⟩
    obtain ⟨s,lists,finished⟩ := mkfs_finished few made
    exact Utils.complete lists finished few ragged next

end holes

theorem no_holes_empty : ∃ image, mkfs [emptyFile] = some image ∧ Complete image := by
  obtain ⟨image,made⟩ := @emptyFiles_made 1 (by decide)
  exact ⟨image,made,(no_holes [emptyFile] image made).mpr (by decide)⟩

/-- With 30 files the directory has 32 entries, one block, and the size of two. -/
theorem hole_of_thirty : ∃ image, mkfs (List.replicate 30 emptyFile) = some image ∧ ¬Complete image := by
  obtain ⟨image,made⟩ := @emptyFiles_made 30 (by decide)
  exact ⟨image,made,root_hole (by rw [List.length_replicate]; decide) (by rw [List.length_replicate]) made⟩

end Lxos.Utils
