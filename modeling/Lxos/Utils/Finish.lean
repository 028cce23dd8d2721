import Lxos.Utils.Image

/-! The end of `main`, which rounds the size of the root directory up and writes
the bitmap; and the runs that reach it. -/
namespace Lxos.Utils
open Lxos.Bytes Lxos.Fs

theorem usedBits_bit (n b : Nat) : (usedBits n (b / 8)).getLsbD (b % 8) = decide (b < n) := by
  induction n with
  | zero => simp [usedBits,zeros]
  | succ i ih =>
    have small : b % 8 < 8 := Nat.mod_lt _ (by omega)
    unfold usedBits
    by_cases byte : b / 8 = i / 8
    · have value : blit (usedBits i) (i / 8) 1 (fun _ => usedBits i (i / 8) ||| bitMask i) (b / 8) =
          usedBits i (b / 8) ||| bitMask i := by
        rw [byte]
        exact @blit_inside (usedBits i) (fun _ => usedBits i (i / 8) ||| bitMask i) (i / 8) 1 0 (by omega)
      rw [value,BitVec.getLsbD_or,ih,Volume.bitMask_bit i small,← Bool.decide_or]
      exact decide_eq_decide.mpr (by omega)
    · rw [blit_outside (by omega),ih]
      exact decide_eq_decide.mpr (by omega)

/-- The size of the root directory after the program, for `n` files. -/
def rootSize (n : Nat) : Nat := (16 * (n + 2) / 512 + 1) * 512

/-- The finished image `s`, and the state `t` before `finishRoot`. -/
structure Finished (n : Nat) (t s : Mkfs) : Prop where
  super : s.sectors 1 = superBlock
  bitmap : s.sectors 58 = usedBits s.freeblock
  owned : s.volume.Owned (· < s.freeblock)
  exact : ∀ b, 59 ≤ b → b < s.freeblock → ∃ q, s.volume.ref q = b
  high : s.freeblock ≤ 1000
  next : s.freeinode = t.freeinode
  ref : s.volume.ref = t.volume.ref
  byte : s.volume.byte = t.volume.byte
  root : s.volume.inode rootino = { t.volume.inode rootino with size := BitVec.ofNat 32 (rootSize n) }
  other : ∀ j, j ≠ rootino → s.volume.inode j = t.volume.inode j

section finish
variable {files : List Input} {s t : Mkfs}

theorem finishRoot_spec (lists : Lists files t) (few : files.length ≤ 206) (ok : finishRoot t = some s) :
    Finished files.length t s := by
  have laid := lists.fit.laid
  have area : sb.iblock rootino = 32 := rfl
  have size := lists.size few
  unfold finishRoot rinode at ok
  cases read : rsect t (sb.iblock rootino) with
  | none => simp [read] at ok
  | some buf =>
    obtain ⟨_,rfl⟩ := rsect_small read laid.size (by omega)
    simp only [read] at ok
    generalize start : Dinode.decode (t.sectors (sb.iblock rootino)) (inodeOffset rootino) = din at ok
    have inode : t.volume.inode rootino = din := (Mkfs.volume_inode (by decide)).trans start
    rw [← inode,size] at ok
    generalize write : winode t rootino { t.volume.inode rootino with
      size := BitVec.ofNat 32 ((16 * (files.length + 2) / bsize + 1) * bsize) } = r at ok
    cases r with
    | none => cases ok
    | some s₁ =>
      have written := winode_spec laid (by decide) (by rfl) (fun _ _ => rfl) write
      have used : s₁.freeblock < bsize * 8 := by
        have := written.laid.high
        change s₁.freeblock < 4096
        omega
      dsimp only [balloc] at ok
      rw [if_pos used] at ok
      have result : s = wsect s₁ 58 (usedBits s₁.freeblock) := (Option.some.inj ok).symm
      have sectors : s.sectors = Function.update s₁.sectors 58 (usedBits s₁.freeblock) := by
        rw [result]
        rfl
      have counters : s.freeinode = s₁.freeinode ∧ s.freeblock = s₁.freeblock := by
        rw [result]
        exact ⟨rfl,rfl⟩
      have same : s.volume = s₁.volume.setBlock 58 (usedBits s₁.freeblock) := by
        have inode (j : Nat) (bound : j < 208) : s.inode j = s₁.inode j := by
          have block := iblock_eq bound
          unfold Mkfs.inode
          rw [sectors,Function.update_of_ne (by omega)]
        simp only [Mkfs.volume,Volume.setBlock,Volume.mk.injEq,true_and]
        refine ⟨funext fun j => ?_,sectors⟩
        by_cases bound : j < 208
        · exact ((if_pos bound).trans (inode j bound)).trans (if_pos bound).symm
        · exact (if_neg bound).trans (if_neg bound).symm
      have small : 58 < s₁.volume.sb.nmeta := by
        change 58 < sb.nmeta
        decide
      have ref : s.volume.ref = s₁.volume.ref := by rw [same,Volume.meta_ref written.laid.owned small]
      refine ⟨?_,?_,?_,?_,?_,?_,ref.trans written.ref,?_,?_,?_⟩
      · rw [sectors,Function.update_of_ne (by omega),written.super]
        exact lists.fit.super
      · rw [sectors,Function.update_self,counters.2]
      · rw [same,counters.2]
        exact Volume.meta_owned written.laid.owned small
      · rw [ref,counters.2]
        exact written.laid.exact
      · rw [counters.2]
        exact written.laid.high
      · rw [counters.1]
        exact written.next
      · rw [same,Volume.meta_byte written.laid.owned small]
        exact written.byte
      · rw [same]
        exact written.inode
      · rw [same]
        exact written.other

theorem mkfs_finished (few : files.length ≤ 206) (made : mkfs files = some s) :
    ∃ t, Lists files t ∧ Finished files.length t s := by
  unfold mkfs at made
  cases start : makeRoot with
  | none => simp [start] at made
  | some s₁ =>
    simp only [start] at made
    cases middle : addFiles s₁ files with
    | none => simp [middle] at made
    | some s₂ =>
      simp only [middle] at made
      have lists := addFiles_lists (makeRoot_lists start) (by simpa using few) middle
      rw [List.nil_append] at lists
      exact ⟨s₂,lists,finishRoot_spec lists few made⟩

end finish

/-! Where there is room the program succeeds. An append that stays within one of
the first twelve blocks takes at most that block. -/
section room
variable {s : Mkfs} {k n : Nat} {p : Buffer}

theorem rsect_room (size : s.size = 1000) {x : Nat} (small : x < 1000) : rsect s x = some (s.sectors x) := by
  unfold rsect
  rw [position_of_lt (by omega),if_pos (by omega)]

theorem winode_room (size : s.size = 1000) (place : k < 208) (d : Dinode) : ∃ s', winode s k d = some s' := by
  have area := iblock_eq place
  unfold winode
  rw [rsect_room size (by omega)]
  exact ⟨_,rfl⟩

theorem iappend_room (fit : Fit s) (place : k < 208) (fits : (s.volume.inode k).size.toNat % 512 + n ≤ 512)
    (low : (s.volume.inode k).size.toNat < 6144) (some : 0 < n) (room : s.freeblock < 1000) :
    ∃ s', iappend s k p n = Option.some s' ∧ s'.freeblock ≤ s.freeblock + 1 := by
  have laid := fit.laid
  have area := iblock_eq place
  have inode : Dinode.decode (s.sectors (sb.iblock k)) (inodeOffset k) = s.volume.inode k :=
    (Mkfs.volume_inode place).symm
  unfold iappend rinode
  rw [rsect_room laid.size (by omega)]
  dsimp only
  rw [inode]
  generalize (s.volume.inode k).size.toNat = off at fits low
  obtain ⟨m,rfl⟩ : ∃ m, n = m + 1 := ⟨n - 1,by omega⟩
  have direct : off / bsize < ndirect := by
    change off / 512 < 12
    omega
  have index : off / bsize < maxfile := Nat.lt_trans direct (by decide)
  obtain ⟨x,s₁,d₁,found,small,size₁,grow⟩ : ∃ x s₁ d₁, blockFor s (s.volume.inode k) (off / bsize) =
      Option.some (x,s₁,d₁) ∧ x < 1000 ∧ s₁.size = 1000 ∧ s₁.freeblock ≤ s.freeblock + 1 := by
    unfold blockFor
    rw [if_pos direct]
    by_cases absent : (s.volume.inode k).addr (off / bsize) = 0
    · rw [if_pos absent]
      exact ⟨_,_,_,rfl,room,laid.size,le_of_eq (take_next laid.high)⟩
    · rw [if_neg absent]
      have value := @Volume.ref_direct s.volume k (off / 512) (by exact place) direct
      have there : s.volume.ref (k,off / 512) ≠ 0 := by
        rw [value]
        exact absent
      have range := laid.range there
      rw [value] at range
      exact ⟨_,_,_,rfl,Nat.lt_of_lt_of_le range.2 laid.high,laid.size,Nat.le_succ _⟩
  have rest : min (m + 1) ((off / bsize + 1) * bsize - off) = m + 1 := by
    change min (m + 1) ((off / 512 + 1) * 512 - off) = m + 1
    omega
  have done (fuel : Nat) (s : Mkfs) (d : Dinode) (off : Nat) (p : Buffer) :
      iappendLoop fuel s d off p 0 = Option.some (s,d,off) := by
    cases fuel with
    | zero => rfl
    | succ fuel => simp [iappendLoop]
  unfold iappendLoop
  rw [if_pos (by omega)]
  dsimp only
  rw [if_pos index,found]
  dsimp only
  rw [rsect_room size₁ small,rest,Nat.sub_self]
  dsimp only
  rw [done]
  dsimp only
  have size₂ : (wsect s₁ x (blit (s₁.sectors x) (off - off / bsize * bsize) (m + 1) p)).size = 1000 := by
    change max s₁.size (position x + 1) = 1000
    rw [position_of_lt (by omega),size₁]
    omega
  obtain ⟨s',written⟩ := winode_room size₂ place { d₁ with size := BitVec.ofNat 32 (off + (m + 1)) }
  refine ⟨s',written,?_⟩
  unfold winode at written
  split at written
  · cases written
  · rw [← Option.some.inj written]
    exact grow

theorem inoalloc_room (fit : Fit s) (room : s.freeinode < 208) (type : BitVec 16) :
    ∃ r, inoalloc s type = some r := by
  obtain ⟨s',written⟩ := @winode_room { s with freeinode := u32 (s.freeinode + 1) } s.freeinode fit.laid.size room
    { Dinode.zero with type := type,nlink := 1 }
  unfold inoalloc
  dsimp only at written ⊢
  rw [written]
  exact ⟨_,rfl⟩

theorem appendChunks_room (fit : Fit s) (place : k < 208) (size : (s.volume.inode k).size.toNat = 0)
    {f : Input} (short : f.chunks.length ≤ 1) (room : s.freeblock < 1000) :
    ∃ s', appendChunks s k f.chunks = some s' ∧ s'.freeblock ≤ s.freeblock + 1 := by
  cases chunks : f.chunks with
  | nil => exact ⟨s,rfl,Nat.le_succ _⟩
  | cons chunk rest =>
    rw [chunks] at short
    obtain rfl : rest = [] := List.length_eq_zero_iff.mp (Nat.le_zero.mp (Nat.le_of_succ_le_succ short))
    have sized := f.sized chunk (by rw [chunks]; exact List.mem_singleton_self _)
    obtain ⟨s',appended,grow⟩ := @iappend_room s k chunk.length (bytes chunk) fit place
      (by rw [size]; simpa using sized.2) (by rw [size]; omega) sized.1 room
    refine ⟨s',?_,grow⟩
    simp only [appendChunks,appended]

/-- A file of at most one chunk takes at most two blocks, one of them for the directory. -/
theorem addFile_room {files : List Input} {f : Input} (lists : Lists files s) (few : files.length < 206)
    (plain : slash ∉ f.name) (short : f.chunks.length ≤ 1) (room : s.freeblock + 2 ≤ 1000) :
    ∃ s', addFile s f = some s' ∧ s'.freeblock ≤ s.freeblock + 2 := by
  have size := lists.size (by omega)
  have next := lists.next
  obtain ⟨⟨inum,s₁⟩,fresh⟩ := inoalloc_room lists.fit (by omega) tFile
  obtain ⟨fit₁,number,next₁,block₁,inode₁,other₁,_⟩ := inoalloc_spec lists.fit (by omega) fresh
  have apart : rootino ≠ inum := by
    change 1 ≠ inum
    omega
  have size₁ : (s₁.volume.inode rootino).size.toNat = 16 * (files.length + 2) := by rw [other₁ rootino apart,size]
  obtain ⟨s₂,entered,grow₂⟩ := @iappend_room s₁ rootino direntSize (dirent inum (strip f.name)) fit₁ (by decide)
    (by rw [size₁]; change _ % 512 + 16 ≤ 512; omega) (by rw [size₁]; omega) (by decide) (by omega)
  have listed := iappend_spec fit₁ (by decide) (by change 1 < _; omega) entered
  have empty₂ : (s₂.volume.inode inum).size.toNat = 0 := by
    rw [listed.other inum apart.symm,inode₁]
    rfl
  obtain ⟨s₃,stored,grow₃⟩ := appendChunks_room listed.fit (by omega) empty₂ short (by omega)
  refine ⟨s₃,?_,by omega⟩
  unfold addFile
  rw [if_neg plain,fresh]
  dsimp only
  rw [entered]
  exact stored

theorem addFiles_room {before files : List Input} (lists : Lists before s) (few : before.length + files.length ≤ 206)
    (small : ∀ f ∈ files, slash ∉ f.name ∧ f.chunks.length ≤ 1) (room : s.freeblock + 2 * files.length ≤ 1000) :
    ∃ s', addFiles s files = some s' := by
  induction files generalizing s before with
  | nil => exact ⟨s,rfl⟩
  | cons f files ih =>
    rw [List.length_cons] at few room
    obtain ⟨plain,short⟩ := small f List.mem_cons_self
    obtain ⟨s₁,added,grow⟩ := addFile_room lists (by omega) plain short (by omega)
    have lists₁ := addFile_lists lists (by omega) added
    obtain ⟨s₂,rest⟩ := ih lists₁ (by rw [List.length_append]; change _ + 1 + _ ≤ _; omega)
      (fun g inside => small g (List.mem_cons_of_mem f inside)) (by omega)
    refine ⟨s₂,?_⟩
    unfold addFiles
    rw [added]
    exact rest

theorem makeRoot_room : ∃ s, makeRoot = some s ∧ s.freeblock ≤ 61 := by
  obtain ⟨_,inode,block⟩ := empty_rest
  obtain ⟨⟨inum,s₁⟩,fresh⟩ := inoalloc_room empty_fit (by omega) tDir
  obtain ⟨fit₁,number,next₁,block₁,inode₁,_⟩ := inoalloc_spec empty_fit (by omega) fresh
  rw [inode] at number
  subst number
  have size₁ : (s₁.volume.inode 1).size.toNat = 0 := by
    rw [inode₁]
    rfl
  obtain ⟨s₂,dot,grow₂⟩ := @iappend_room s₁ 1 direntSize (dirent 1 [46]) fit₁ (by decide)
    (by rw [size₁]; decide) (by omega) (by decide) (by omega)
  have first := iappend_spec fit₁ (by decide) (by omega) dot
  have size₂ : (s₂.volume.inode 1).size.toNat = 16 := by
    rw [first.size,size₁]
    rfl
  obtain ⟨s₃,dots,grow₃⟩ := @iappend_room s₂ 1 direntSize (dirent 1 [46,46]) first.fit (by decide)
    (by rw [size₂]; decide) (by omega) (by decide) (by omega)
  refine ⟨s₃,?_,by omega⟩
  unfold makeRoot
  rw [empty_eq,fresh]
  dsimp only
  rw [dot]
  exact dots

theorem finishRoot_room {files : List Input} (lists : Lists files s) : ∃ s', finishRoot s = some s' := by
  have laid := lists.fit.laid
  have area : sb.iblock rootino = 32 := rfl
  unfold finishRoot rinode
  rw [rsect_room laid.size (by omega)]
  dsimp only
  generalize Dinode.decode (s.sectors (sb.iblock rootino)) (inodeOffset rootino) = din
  obtain ⟨s₁,written⟩ := @winode_room s rootino laid.size (by decide)
    { din with size := BitVec.ofNat 32 ((din.size.toNat / bsize + 1) * bsize) }
  have block : s₁.freeblock = s.freeblock := by
    unfold winode at written
    split at written
    · cases written
    · rw [← Option.some.inj written]
      rfl
  have used : s₁.freeblock < bsize * 8 := by
    have := laid.high
    change s₁.freeblock < 4096
    omega
  rw [written]
  dsimp only [balloc]
  rw [if_pos used]
  exact ⟨_,rfl⟩

/-- The program succeeds on at most 206 files of at most one chunk. -/
theorem mkfs_room {files : List Input} (few : files.length ≤ 206)
    (small : ∀ f ∈ files, slash ∉ f.name ∧ f.chunks.length ≤ 1) : ∃ image, mkfs files = some image := by
  obtain ⟨s₁,start,block⟩ := makeRoot_room
  have lists₁ := makeRoot_lists start
  obtain ⟨s₂,middle⟩ := addFiles_room lists₁ (by simpa using few) small (by omega)
  have lists₂ := addFiles_lists lists₁ (by simpa using few) middle
  obtain ⟨s₃,last⟩ := finishRoot_room lists₂
  refine ⟨s₃,?_⟩
  unfold mkfs
  rw [start]
  dsimp only
  rw [middle]
  exact last

end room

end Lxos.Utils
