import Lxos.Utils.ReadBack
import Lxos.Fs.Lawful

/-! A fresh image is lawful. Past its size a file is blank, so that the entries of the
root directory are those of the command line. -/
namespace Lxos.Utils
open Lxos.Bytes Lxos.Fs

/-- Nothing is stored past the end of a file, and inode 0 is not used. -/
structure Blank (s : Mkfs) : Prop where
  rest : ∀ k o, (s.volume.inode k).size.toNat ≤ o → s.volume.byte k o = 0
  first : s.volume.inode 0 = Dinode.zero

section blank
variable {s s' : Mkfs} {k n : Nat} {p : Buffer} {files : List Input} {f : Input}

theorem Append.blank (append : Append k n p s s') (positive : k ≠ 0) (blank : Blank s) : Blank s' := by
  refine ⟨fun j o past => ?_,?_⟩
  · rcases eq_or_ne j k with rfl | away
    · rw [append.size] at past
      rw [append.byte,if_neg (by omega)]
      exact blank.rest j o (by omega)
    · rw [append.other j away] at past
      rw [append.foreign j away]
      exact blank.rest j o past
  · rw [append.other 0 positive.symm]
    exact blank.first

theorem inoalloc_blank {type : BitVec 16} {inum : Nat} (fit : Fit s) (room : s.freeinode < 208) (positive : inum ≠ 0)
    (blank : Blank s) (ok : inoalloc s type = some (inum,s')) : Blank s' := by
  obtain ⟨_,number,_,_,inode,other,byte⟩ := inoalloc_spec fit room ok
  refine ⟨fun j o past => ?_,?_⟩
  · rw [byte]
    refine blank.rest j o ?_
    rcases eq_or_ne j inum with rfl | away
    · rw [fit.unused j (le_of_eq number.symm)]
      exact Nat.zero_le _
    · rw [← other j away]
      exact past
  · rw [other 0 positive.symm]
    exact blank.first

theorem addFile_blank (lists : Lists files s) (few : files.length < 206) (blank : Blank s) (ok : addFile s f = some s') :
    Blank s' := by
  have next := lists.next
  unfold addFile at ok
  split at ok
  · cases ok
  split at ok
  · cases ok
  rename_i inum s₁ fresh
  obtain ⟨fit₁,number,next₁,_⟩ := inoalloc_spec lists.fit (by omega) fresh
  have blank₁ := inoalloc_blank lists.fit (by omega) (by omega) blank fresh
  split at ok
  · cases ok
  rename_i s₂ entered
  have listed := iappend_spec fit₁ (by decide) (by change 1 < _; omega) entered
  have blank₂ := listed.blank (by decide) blank₁
  exact (appendChunks_spec listed.fit (by omega) (by rw [listed.next]; omega) ok).blank (by omega) blank₂

theorem addFiles_blank {before : List Input} (lists : Lists before s) (few : before.length + files.length ≤ 206)
    (blank : Blank s) (ok : addFiles s files = some s') : Blank s' := by
  induction files generalizing s before with
  | nil =>
    cases ok
    exact blank
  | cons f files ih =>
    rw [List.length_cons] at few
    unfold addFiles at ok
    split at ok
    · cases ok
    · rename_i s₁ step
      refine ih (addFile_lists lists (by omega) step) ?_ (addFile_blank lists (by omega) blank step) ok
      rw [List.length_append]
      change before.length + 1 + files.length ≤ 206
      omega

theorem empty_blank : Blank empty := by
  refine ⟨fun k o _ => ?_,empty_inode 0⟩
  have absent (q : Nat × Nat) := empty_ref q
  have block : empty.volume.block 4294967295 = zeros := by
    rw [empty_fit.laid.block,empty_sectors]
    exact Function.update_of_ne (by omega) _ _
  unfold Volume.byte Volume.addr
  simp only [absent]
  split
  · exact if_pos rfl
  · rw [if_neg (by omega),block]
    exact rfl

theorem makeRoot_blank (ok : makeRoot = some s) : Blank s := by
  have counter := empty_rest.2.1
  unfold makeRoot at ok
  rw [empty_eq] at ok
  split at ok
  · cases ok
  rename_i inum s₁ fresh
  obtain ⟨fit₁,number,next₁,_⟩ := inoalloc_spec empty_fit (by omega) fresh
  have blank₁ := inoalloc_blank empty_fit (by omega) (by omega) empty_blank fresh
  split at ok
  · cases ok
  rename_i s₂ dot
  have first := iappend_spec fit₁ (by omega) (by omega) dot
  exact (iappend_spec first.fit (by omega) (by rw [first.next]; omega) ok).blank (by omega) (first.blank (by omega) blank₁)

theorem mkfs_blank (few : files.length ≤ 206) {image : Mkfs} (made : mkfs files = some image) :
    ∃ t, Lists files t ∧ Finished files.length t image ∧ Blank t := by
  unfold mkfs at made
  split at made
  · cases made
  rename_i s₁ start
  split at made
  · cases made
  rename_i s₂ middle
  have none_yet := makeRoot_lists start
  have room : ([] : List Input).length + files.length ≤ 206 := by simpa using few
  have lists := addFiles_lists none_yet room middle
  have blank := addFiles_blank none_yet room (makeRoot_blank start) middle
  exact ⟨s₂,lists,finishRoot_spec lists few made,blank⟩

end blank

section lawful
variable {files : List Input} {image t : Mkfs}

/-- The inodes of an image: the root, the files, and those not in use. -/
theorem image_cases (lists : Lists files t) (finished : Finished files.length t image) (few : files.length ≤ 206)
    (blank : Blank t) (k : Nat) :
    k = rootino ∧ (image.volume.inode k).type = tDir ∧ (image.volume.inode k).nlink = 1 ∧
      (image.volume.inode k).size.toNat = rootSize files.length ∨
    (∃ i, k = i + 2 ∧ i < files.length) ∧ (image.volume.inode k).type = tFile ∧ (image.volume.inode k).nlink = 1 ∧
      (image.volume.inode k).size.toNat ≤ 71680 ∨
    image.volume.inode k = Dinode.zero := by
  rcases eq_or_ne k rootino with rfl | other
  · obtain ⟨addrs,root⟩ := lists.root
    refine Or.inl ⟨rfl,?_,?_,finished.root_size few⟩
    · rw [finished.root,root]
    · rw [finished.root,root]
  refine Or.inr ?_
  rw [finished.other k other]
  change k ≠ 1 at other
  rcases Nat.eq_zero_or_pos k with rfl | positive
  · exact Or.inr blank.first
  rcases Nat.lt_or_ge k (files.length + 2) with taken | free
  · obtain ⟨i,rfl⟩ : ∃ i, k = i + 2 := ⟨k - 2,by omega⟩
    obtain ⟨short,addrs,inode⟩ := lists.file i (by omega)
    refine Or.inl ⟨⟨i,rfl,by omega⟩,?_,?_,lists.fit.small _⟩
    · rw [inode]
    · rw [inode]
  · exact Or.inr (lists.fit.unused k (by rw [lists.next]; exact free))

/-- Entry `j` of the root directory: one of those of the command line, or free. -/
theorem image_table (lists : Lists files t) (finished : Finished files.length t image) (few : files.length ≤ 206)
    (blank : Blank t) {j n : Nat} {name : List Byte} (here : table (image.volume.byte rootino) j = some (name,n)) :
    j < files.length + 2 ∧ n = max 1 j ∧ name = ((names files).getD j []).take 14 := by
  rcases Nat.lt_or_ge j (files.length + 2) with inside | past
  · obtain ⟨matching,number⟩ := @root_entry _ _ _ lists finished few (deName (entryAt (image.volume.byte rootino) j)) j inside
    unfold table at here
    split at here
    · cases here
    · rename_i used
      obtain ⟨title,value⟩ := Prod.mk.inj (Option.some.inj here)
      exact ⟨inside,value.symm.trans number,title.symm.trans (matching.mp ⟨used,rfl⟩)⟩
  · have zero (i : Nat) : entryAt (image.volume.byte rootino) j i = 0 := by
      unfold entryAt
      rw [finished.byte]
      refine blank.rest rootino _ ?_
      rw [lists.size few]
      omega
    rw [table_free ?_] at here
    · cases here
    · exact (@le16_congr _ zeros 0 0 fun i _ => zero _).trans (le16_zeros 0)

theorem Titles.single (titles : Titles files) {i j : Nat} (less : i < j) (inside : j < files.length + 2) :
    ((names files).getD i []).take 14 ≠ ((names files).getD j []).take 14 := by
  rcases Nat.lt_or_ge j 2 with dots | file
  · obtain ⟨rfl,rfl⟩ : i = 0 ∧ j = 1 := by omega
    change ([46] : List Byte).take 14 ≠ ([46,46] : List Byte).take 14
    decide
  · obtain ⟨l,rfl⟩ : ∃ l, j = l + 2 := ⟨j - 2,by omega⟩
    rw [names_file (i := l) (by omega)]
    exact (titles.apart (i := l) (by omega) less).symm

theorem image_taken (lists : Lists files t) (finished : Finished files.length t image) {k : Nat} (positive : 1 ≤ k)
    (taken : k < files.length + 2) : (image.volume.inode k).type ≠ 0 := by
  rcases eq_or_ne k rootino with rfl | other
  · obtain ⟨addrs,root⟩ := lists.root
    rw [finished.root,root]
    change tDir ≠ 0
    decide
  · change k ≠ 1 at other
    obtain ⟨i,rfl⟩ : ∃ i, k = i + 2 := ⟨k - 2,by omega⟩
    rw [(finished.file lists (by omega : i < files.length)).1]
    decide

theorem image_listing (lists : Lists files t) (finished : Finished files.length t image) (few : files.length ≤ 206)
    (blank : Blank t) : Volume.Listing (Titles files) image.volume rootino := by
  have size := finished.root_size few
  refine ⟨?_,fun j name n _ here => ?_,fun titles i j name m n _ _ left right => ?_,fun name dot => ?_⟩
  · rw [size]
    exact ⟨32 * (16 * (files.length + 2) / 512 + 1),by unfold rootSize; omega⟩
  · obtain ⟨inside,rfl,_⟩ := image_table lists finished few blank here
    exact image_taken lists finished (Nat.le_max_left 1 j) (by omega)
  · obtain ⟨inside,_,title⟩ := image_table lists finished few blank left
    obtain ⟨inside',_,title'⟩ := image_table lists finished few blank right
    have same := title.symm.trans title'
    rcases Nat.lt_trichotomy i j with less | here | more
    · exact absurd same (titles.single less inside')
    · exact here
    · exact absurd same.symm (titles.single more inside)
  · have entered (j : Nat) (low : j < 2) (whole : cname (bytes name) = name)
        (same : cname (bytes name) = ((names files).getD j []).take 14) :
        ∃ j n, 16 * j < (image.volume.inode rootino).size.toNat ∧ table (image.volume.byte rootino) j = some (name,n) := by
      have inside : j < files.length + 2 := by omega
      obtain ⟨n,here⟩ := matches_iff.mp ((root_entry lists finished few inside).1.mpr same)
      refine ⟨j,n,?_,?_⟩
      · rw [size]
        unfold rootSize
        omega
      · rw [here,whole]
    rcases List.mem_cons.mp dot with rfl | dot
    · exact entered 0 (by omega) rfl rfl
    · obtain rfl := List.mem_singleton.mp dot
      exact entered 1 (by omega) rfl rfl

/-- The root directory is the only inode that may have a hole. -/
theorem image_lawful (lists : Lists files t) (finished : Finished files.length t image) (few : files.length ≤ 206)
    (blank : Blank t) : image.volume.Lawful (Titles files) (· = rootino) := by
  have kind := image_cases lists finished few blank
  have refs {k : Nat} := @Finished.refs _ _ _ _ finished lists k
  have root := image_taken lists finished (le_refl 1) (by omega)
  refine ⟨finished.sound,(by decide : sb.slots ≤ 65536),fun k some => ?_,fun k => ?_,fun k tight bn below => ?_,fun k here => ?_,fun k some => ?_,
    fun k zero => ?_,fun k directory => ?_,root⟩
  · by_contra past
    refine some ?_
    have rest : image.volume.inode k = Dinode.zero := if_neg past
    rw [rest]
    rfl
  · rcases kind k with ⟨_,_,_,size⟩ | ⟨_,_,_,small⟩ | zero
    · rw [size]
      unfold rootSize
      omega
    · exact small
    · rw [zero]
      exact Nat.zero_le _
  · have bound : k < 208 := by
      by_contra past
      have rest : image.volume.inode k = Dinode.zero := if_neg past
      rw [rest] at below
      exact absurd below (Nat.not_lt_zero _)
    rw [refs bound,← finished.other k tight]
    have small : (image.volume.inode k).size.toNat ≤ 71680 := by
      rw [finished.other k tight]
      exact lists.fit.small k
    unfold needed
    omega
  · subst here
    rcases kind rootino with ⟨_,type,_⟩ | ⟨⟨i,number,_⟩,_⟩ | zero
    · exact type
    · change 1 = i + 2 at number
      omega
    · rw [zero] at root
      exact absurd rfl root
  · rcases kind k with ⟨_,_,link,_⟩ | ⟨_,_,link,_⟩ | zero
    · rw [link]
      decide
    · rw [link]
      decide
    · rw [zero] at some
      exact absurd rfl some
  · rcases kind k with ⟨_,type,_⟩ | ⟨_,type,_⟩ | empty
    · rw [type] at zero
      cases zero
    · rw [type] at zero
      cases zero
    · exact empty
  · rcases kind k with ⟨rfl,_⟩ | ⟨_,type,_⟩ | empty
    · exact image_listing lists finished few blank
    · rw [type] at directory
      cases directory
    · rw [empty] at directory
      cases directory

end lawful

end Lxos.Utils
