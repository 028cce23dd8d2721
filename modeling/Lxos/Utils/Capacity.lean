import Lxos.Utils.Finish

/-! What holds of every run that ends with status 0, however many files it is given:
a block past the end of the image cannot be read, so that `freeblock` stays within
it. Nothing of the kind guards `freeinode`: from inode 208 on `winode` writes to the
bitmap and then to the data area. -/
namespace Lxos.Utils
open Lxos.Bytes Lxos.Fs

/-- The counter of inodes is below what a block within the image can hold. -/
structure Whole (s : Mkfs) : Prop where
  size : s.size = 1000
  high : s.freeblock ≤ 1000
  table : s.freeinode ≤ 7744

/-- The blocks taken on the way from `s`. -/
structure Steady (s s' : Mkfs) : Prop where
  whole : Whole s'
  grow : s.freeblock ≤ s'.freeblock
  next : s'.freeinode = s.freeinode

section steady
variable {s s' s'' : Mkfs} {k n x fbn : Nat} {p : Buffer} {din din' : Dinode} {buf : Block}

theorem Steady.refl (whole : Whole s) : Steady s s := ⟨whole,le_refl _,rfl⟩

theorem Steady.trans (first : Steady s s') (second : Steady s' s'') : Steady s s'' :=
  ⟨second.whole,first.grow.trans second.grow,second.next.trans first.next⟩

theorem Steady.take (whole : Whole s) (found : rsect s' s.freeblock = some buf) (size : s'.size = 1000)
    (block : s'.freeblock = (take s).freeblock) (inode : s'.freeinode = s.freeinode) : Steady s s' := by
  have high := whole.high
  have room := (rsect_small found size (by omega)).1
  have table := whole.table
  rw [take_next high] at block
  exact ⟨⟨size,by omega,by omega⟩,by omega,inode⟩

theorem Steady.wsect (whole : Whole s) (found : rsect s x = some buf) (data : Block) : Steady s (wsect s x data) := by
  have inside := (rsect_some found).1
  have size : (Utils.wsect s x data).size = 1000 := by
    change max s.size (position x + 1) = 1000
    have := whole.size
    omega
  exact ⟨⟨size,whole.high,whole.table⟩,le_refl _,rfl⟩

theorem blockFor_steady (whole : Whole s) (ok : blockFor s din fbn = some (x,s',din')) (found : rsect s' x = some buf) :
    Steady s s' := by
  unfold blockFor at ok
  by_cases direct : fbn < ndirect
  · rw [if_pos direct] at ok
    split at ok
    · cases ok
      exact Steady.take whole found whole.size rfl rfl
    · cases ok
      exact Steady.refl whole
  · rw [if_neg direct] at ok
    generalize step : (if din.addr ndirect = 0 then (take s,din.setAddr ndirect s.freeblock) else (s,din)) = r at ok
    obtain ⟨s₁,d₁⟩ := r
    dsimp only at ok
    cases read : rsect s₁ (d₁.addr ndirect) with
    | none => simp [read] at ok
    | some indirect =>
      simp only [read] at ok
      have first : Steady s s₁ := by
        split at step
        · obtain ⟨rfl,rfl⟩ := Prod.mk.inj step
          have high := whole.high
          rw [Dinode.addr_setAddr _ _ _ _ (by decide) (by omega),if_pos rfl] at read
          exact Steady.take whole read whole.size rfl rfl
        · obtain ⟨rfl,rfl⟩ := Prod.mk.inj step
          exact Steady.refl whole
      have size := (Steady.wsect first.whole read
        (put32 indirect (4 * (fbn - ndirect)) (BitVec.ofNat 32 s₁.freeblock))).whole.size
      split at ok
      · cases ok
        exact first.trans (Steady.take first.whole found size rfl rfl)
      · cases ok
        exact first

theorem iappendLoop_steady (fuel : Nat) (whole : Whole s) {off off' : Nat}
    (ok : iappendLoop fuel s din off p n = some (s',din',off')) : Steady s s' := by
  induction fuel generalizing s din off p n with
  | zero =>
    cases ok
    exact Steady.refl whole
  | succ fuel ih =>
    unfold iappendLoop at ok
    split at ok
    · dsimp only at ok
      split at ok
      · cases block : blockFor s din (off / bsize) with
        | none => simp [block] at ok
        | some r =>
          obtain ⟨x,s₁,d₁⟩ := r
          simp only [block] at ok
          cases found : rsect s₁ x with
          | none => simp [found] at ok
          | some buf =>
            simp only [found] at ok
            have first := blockFor_steady whole block found
            have second := Steady.wsect first.whole found (blit buf (off - off / bsize * bsize)
              (min n ((off / bsize + 1) * bsize - off)) p)
            exact (first.trans second).trans (ih second.whole ok)
      · cases ok
    · cases ok
      exact Steady.refl whole

theorem winode_steady (whole : Whole s) {d : Dinode} (ok : winode s k d = some s') :
    Steady s s' ∧ position (sb.iblock k) < 1000 := by
  unfold winode at ok
  cases read : rsect s (sb.iblock k) with
  | none => simp [read] at ok
  | some buf =>
    simp only [read] at ok
    cases ok
    exact ⟨Steady.wsect whole read _,whole.size ▸ (rsect_some read).1⟩

theorem iappend_steady (whole : Whole s) (ok : iappend s k p n = some s') : Steady s s' := by
  unfold iappend at ok
  split at ok
  · cases ok
  · split at ok
    · cases ok
    · rename_i run
      have first := iappendLoop_steady _ whole run
      exact first.trans (winode_steady first.whole ok).1

theorem appendChunks_steady {chunks : List (List Byte)} (whole : Whole s)
    (ok : appendChunks s k chunks = some s') : Steady s s' := by
  induction chunks generalizing s with
  | nil =>
    cases ok
    exact Steady.refl whole
  | cons chunk chunks ih =>
    unfold appendChunks at ok
    split at ok
    · cases ok
    · rename_i step
      have first := iappend_steady whole step
      exact first.trans (ih first.whole ok)

/-- The inodes are numbered in the order of the files. -/
theorem inoalloc_steady (whole : Whole s) {type : BitVec 16} {inum : Nat} (ok : inoalloc s type = some (inum,s')) :
    Whole s' ∧ s.freeblock ≤ s'.freeblock ∧ s'.freeinode = s.freeinode + 1 := by
  have table := whole.table
  have next : u32 (s.freeinode + 1) = s.freeinode + 1 := u32_of_lt (by omega)
  unfold inoalloc at ok
  dsimp only at ok
  split at ok
  · cases ok
  · rename_i write
    cases ok
    have area : position (sb.iblock s.freeinode) < 1000 → s.freeinode < 7744 := by
      have block : sb.iblock s.freeinode = s.freeinode / 8 + 32 := u32_of_lt (by change s.freeinode / 8 + 32 < _; omega)
      rw [block,position_of_lt (by omega)]
      omega
    -- before `winode` the counter may be one too high
    unfold winode at write
    split at write
    · cases write
    · rename_i read
      have inside := (rsect_some read).1
      change position (sb.iblock s.freeinode) < s.size at inside
      rw [whole.size] at inside
      have last := area inside
      rw [next] at read write
      have raised : Whole { s with freeinode := s.freeinode + 1 } := ⟨whole.size,whole.high,by change s.freeinode + 1 ≤ _; omega⟩
      cases write
      exact ⟨(Steady.wsect raised read _).whole,le_refl _,rfl⟩

theorem addFile_steady {f : Input} (whole : Whole s) (ok : addFile s f = some s') :
    Whole s' ∧ s.freeblock ≤ s'.freeblock ∧ s'.freeinode = s.freeinode + 1 := by
  unfold addFile at ok
  split at ok
  · cases ok
  · split at ok
    · cases ok
    · rename_i fresh
      obtain ⟨whole₁,grow₁,next₁⟩ := inoalloc_steady whole fresh
      split at ok
      · cases ok
      · rename_i entered
        have second := iappend_steady whole₁ entered
        have third := second.trans (appendChunks_steady second.whole ok)
        exact ⟨third.whole,grow₁.trans third.grow,third.next.trans next₁⟩

theorem addFiles_steady {files : List Input} (whole : Whole s) (ok : addFiles s files = some s') :
    Whole s' ∧ s.freeblock ≤ s'.freeblock ∧ s'.freeinode = s.freeinode + files.length := by
  induction files generalizing s with
  | nil =>
    cases ok
    exact ⟨whole,le_refl _,rfl⟩
  | cons f files ih =>
    unfold addFiles at ok
    split at ok
    · cases ok
    · rename_i step
      obtain ⟨whole₁,grow₁,next₁⟩ := addFile_steady whole step
      obtain ⟨whole₂,grow₂,next₂⟩ := ih whole₁ ok
      refine ⟨whole₂,grow₁.trans grow₂,?_⟩
      rw [next₂,next₁,List.length_cons]
      omega

theorem addFiles_append {files rest : List Input} (ok : addFiles s (files ++ rest) = some s'') :
    ∃ s', addFiles s files = some s' ∧ addFiles s' rest = some s'' := by
  induction files generalizing s with
  | nil => exact ⟨s,rfl,ok⟩
  | cons f files ih =>
    change addFiles s (f :: (files ++ rest)) = some s'' at ok
    unfold addFiles at ok
    split at ok
    · cases ok
    · rename_i step
      obtain ⟨s',first,second⟩ := ih ok
      refine ⟨s',?_,second⟩
      unfold addFiles
      rw [step]
      exact first

end steady

theorem Fit.whole {s : Mkfs} (fit : Fit s) (table : s.freeinode ≤ 7744) : Whole s :=
  ⟨fit.laid.size,fit.laid.high,table⟩

theorem wsect_bitmap (s : Mkfs) (data : Block) : (wsect s sb.bmapstart data).sectors 58 = data := by
  have place : position 58 = 58 := position_of_lt (by omega)
  have sectors : (wsect s 58 data).sectors = Function.update s.sectors (position 58) data := rfl
  change (wsect s 58 data).sectors 58 = data
  rw [sectors,place,Function.update_self]

/-- The last block written is the bitmap. -/
theorem finishRoot_steady {s s' : Mkfs} (whole : Whole s) (ok : finishRoot s = some s') :
    Steady s s' ∧ s'.sectors 58 = usedBits s'.freeblock := by
  unfold finishRoot at ok
  split at ok
  · cases ok
  · split at ok
    · cases ok
    · rename_i write
      have first := (winode_steady whole write).1
      unfold balloc at ok
      split at ok
      · cases ok
        have read := @rsect_room _ first.whole.size sb.bmapstart (by change 58 < 1000; omega)
        exact ⟨first.trans (Steady.wsect first.whole read _),wsect_bitmap _ _⟩
      · cases ok

section made
variable {files : List Input} {image : Mkfs}

/-- Inodes 1 to `n+1` are in use, and no block past the end of the image. -/
theorem mkfs_steady (made : mkfs files = some image) : image.freeinode = files.length + 2 ∧ image.freeblock ≤ 1000 ∧
    image.sectors 58 = usedBits image.freeblock := by
  unfold mkfs at made
  split at made
  · cases made
  · rename_i start
    have root := makeRoot_lists start
    have next := root.next
    split at made
    · cases made
    · rename_i middle
      have whole := root.fit.whole (by rw [next]; change 0 + 2 ≤ _; omega)
      obtain ⟨whole₁,_,next₁⟩ := addFiles_steady whole middle
      obtain ⟨steady,bitmap⟩ := finishRoot_steady whole₁ made
      refine ⟨?_,steady.whole.high,bitmap⟩
      rw [steady.next,next₁,next]
      exact Nat.add_comm _ _

/-- What the program promises of the image of `files`: inode and block numbers in
range, and each file with its type and size. -/
structure Capacity (files : List Input) (image : Mkfs) : Prop where
  inode : ∀ k, rootino ≤ k → k < image.freeinode →
    k < sb.ninodes ∧ sb.inodestart ≤ sb.iblock k ∧ sb.iblock k < sb.bmapstart
  block : ∀ b, nmeta ≤ b → b < image.freeblock → b < fssize
  file : ∀ i, (h : i < files.length) →
    (image.inode (i + 2)).type = tFile ∧ (image.inode (i + 2)).size.toNat = files[i].data.length

/-- The image has what it promises exactly if its inodes are those that the
superblock counts. -/
theorem capacity (files : List Input) (image : Mkfs) (made : mkfs files = some image) :
    Capacity files image ↔ files.length ≤ 198 := by
  obtain ⟨next,high,_⟩ := mkfs_steady made
  constructor
  · intro capacity
    by_contra more
    have last := (capacity.inode 200 (by decide) (by omega)).1
    exact absurd last (by decide)
  · intro few
    obtain ⟨t,lists,finished⟩ := mkfs_finished (by omega) made
    refine ⟨fun k _ small => ⟨by change k < 200; omega,?_⟩,fun b _ small => by change b < 1000; omega,fun i h => ?_⟩
    · rw [iblock_eq (by omega)]
      change 32 ≤ k / 8 + 32 ∧ k / 8 + 32 < 58
      omega
    · obtain ⟨short,addrs,inode⟩ := lists.file i h
      have file : image.inode (i + 2) = t.volume.inode (i + 2) :=
        (Mkfs.volume_inode (by omega)).symm.trans (finished.other (i + 2) (by change i + 2 ≠ 1; omega))
      rw [file,inode,BitVec.toNat_ofNat]
      exact ⟨rfl,Nat.mod_eq_of_lt (by omega)⟩

end made

/-- An empty file named `a`. -/
def emptyFile : Input := ⟨[97],[],by decide,fun _ h => absurd h (by simp)⟩

theorem emptyFiles_made {n : Nat} (few : n ≤ 206) : ∃ image, mkfs (List.replicate n emptyFile) = some image := by
  refine mkfs_room (by rw [List.length_replicate]; exact few) (fun f inside => ?_)
  rw [List.eq_of_mem_replicate inside]
  exact ⟨by decide,by decide⟩

theorem capacity_empty : ∃ image, Capacity [emptyFile] image := by
  obtain ⟨image,made⟩ := @emptyFiles_made 1 (by decide)
  exact ⟨image,(capacity [emptyFile] image made).mpr (by decide)⟩

/-- Of 199 empty files the last one is inode 200, which the kernel never uses. -/
theorem capacity_exceeded : ∃ image, mkfs (List.replicate 199 emptyFile) = some image ∧
    ¬Capacity (List.replicate 199 emptyFile) image := by
  obtain ⟨image,made⟩ := @emptyFiles_made 199 (by decide)
  have next := (mkfs_steady made).1
  rw [List.length_replicate] at next
  refine ⟨image,made,fun capacity => ?_⟩
  exact absurd (capacity.inode 200 (by decide) (by omega)).1 (by decide)

end Lxos.Utils
