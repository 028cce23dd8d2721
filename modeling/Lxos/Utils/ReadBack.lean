import Lxos.Utils.Capacity
import Lxos.Fs.Coherent
import Lxos.Kernel.References
import Mathlib.Data.List.TakeWhile

/-! The kernel on a fresh image: `namei` finds each file of the command line, and
`readi` gives its bytes. -/
namespace Lxos.Utils
open Lxos.Bytes Lxos.Fs

theorem superBlock_decode : Superblock.decode superBlock = sb := by decide

/-- The kernel runs on the image, which it has not changed, with room for two more
inodes in its cache. -/
structure Mounted (image : Mkfs) (st : FsState) : Prop where
  on : OnDisk rootdev (Superblock.decode (image.sectors 1)) image.sectors st
  free : ∃ s t, s ≠ t ∧ (st.icache s).ref = 0 ∧ (st.icache t).ref = 0

/-- So it is for the first process, once `forkret` has read the superblock. -/
theorem mounted_uinit {image : Mkfs} {disk : Nat → Nat → Block} (device : disk rootdev = image.sectors)
    (m : Kernel.Vm) (kstack pgdir : Kernel.Page) (stack : Buffer) :
    Mounted image (Kernel.uinitState m kstack pgdir disk stack).fs := by
  have slot (s : Slot) : ((Kernel.uinitState m kstack pgdir disk stack).fs.icache s) =
      if s = 0 then ⟨Dinode.zero,rootdev,rootino,1,false⟩ else ⟨Dinode.zero,0,0,0,false⟩ := rfl
  have only (s : Slot) (positive : 0 < ((Kernel.uinitState m kstack pgdir disk stack).fs.icache s).ref) : s = 0 := by
    by_contra other
    rw [slot,if_neg other] at positive
    exact lt_irrefl _ positive
  refine ⟨⟨?_,device,fun s t hs ht _ _ => (only s hs).trans (only t ht).symm,fun s locked => ?_,rfl⟩,1,2,by decide,rfl,rfl⟩
  · rw [← device]
    rfl
  · have invalid := locked.2.2
    rw [only s locked.1,slot] at invalid
    cases invalid

section volume
variable {files : List Input} {image t : Mkfs} {st : FsState}

theorem Finished.marked {n : Nat} (finished : Finished n t image) {b : Nat} (bound : b < 4096) :
    image.volume.marked b ↔ b < image.freeblock := by
  have block : sb.bblock b = 58 := (u32_of_lt (by change b / 4096 + 58 < _; omega)).trans (by change b / 4096 + 58 = 58; omega)
  have small : b % bpb = b := Nat.mod_eq_of_lt bound
  change (image.sectors (sb.bblock b) (b % bpb / 8)).getLsbD (b % 8) = true ↔ _
  rw [block,small,finished.bitmap,usedBits_bit,decide_eq_true_iff]

theorem Finished.sound {n : Nat} (finished : Finished n t image) : image.volume.Sound :=
  finished.owned.congr (fun c h => (finished.marked (by change c < 1000 at h; omega)).symm)

theorem Finished.volume {n : Nat} (finished : Finished n t image)
    (on : OnDisk rootdev (Superblock.decode (image.sectors 1)) image.sectors st) : st.volume rootdev = image.volume := by
  rw [on.volume,finished.super,superBlock_decode]
  rfl

/-- The addresses that an inode of the image has. -/
theorem Finished.refs {n : Nat} (finished : Finished n t image) (lists : Lists files t) {k : Nat} (bound : k < 208) (p : Nat) :
    image.volume.ref (k,p) ≠ 0 ↔ needed (t.volume.inode k).size.toNat p := by
  rw [finished.ref]
  exact lists.fit.spans k bound p

theorem Finished.root_size {n : Nat} (finished : Finished n t image) (few : n ≤ 206) :
    (image.volume.inode rootino).size.toNat = rootSize n := by
  rw [finished.root,BitVec.toNat_ofNat]
  refine Nat.mod_eq_of_lt ?_
  unfold rootSize
  omega

theorem Finished.file {n : Nat} (finished : Finished n t image) (lists : Lists files t) {i : Nat} (h : i < files.length) :
    (image.volume.inode (i + 2)).type = tFile ∧ (image.volume.inode (i + 2)).nlink = 1 ∧
      (image.volume.inode (i + 2)).size.toNat = files[i].data.length := by
  obtain ⟨short,addrs,inode⟩ := lists.file i h
  rw [finished.other (i + 2) (by change i + 2 ≠ 1; omega),inode,BitVec.toNat_ofNat]
  exact ⟨rfl,rfl,Nat.mod_eq_of_lt (by omega)⟩

end volume

/-! Names of the root directory. -/
section names
variable {files : List Input} {f : Input} {l : List Byte} {x : Byte}

theorem strip_mem (inside : x ∈ strip l) : x ∈ l := by
  unfold strip at inside
  split at inside
  · exact List.mem_cons_of_mem _ inside
  · exact inside

theorem names_string (files : List Input) (j : Nat) : 0 ∉ (names files).getD j [] := by
  rcases Nat.lt_or_ge j (names files).length with bound | past
  · rw [List.getD_eq_getElem _ _ bound]
    intro zero
    have inside := List.getElem_mem bound
    generalize (names files)[j] = name at inside zero
    unfold names at inside
    rcases List.mem_cons.mp inside with rfl | inside
    · exact absurd zero (by decide)
    · rcases List.mem_cons.mp inside with rfl | inside
      · exact absurd zero (by decide)
      · obtain ⟨f,_,rfl⟩ := List.mem_map.mp inside
        exact f.string (strip_mem zero)
  · rw [List.getD_eq_default _ _ past]
    exact List.not_mem_nil

/-- Entry `j` is in use, and has the name of file `j-2`. -/
theorem entry_fields (files : List Input) {j : Nat} (width : j < 65536) :
    (le16 (entry files j) 0).toNat = max 1 j ∧ cname (deName (entry files j)) = ((names files).getD j []).take 14 :=
  ⟨@direntBytes_number (bytes ((names files).getD j [])) (max 1 j) (by omega),direntBytes_name (names_string files j) _⟩

theorem names_file {i : Nat} (h : i < files.length) : (names files).getD (i + 2) [] = strip files[i].name := by
  have bound : i + 2 < (names files).length := by
    rw [names_length]
    omega
  rw [List.getD_eq_getElem _ _ bound]
  simp [names]

theorem take_short {l m : List Byte} (short : m.length < 14) (same : l.take 14 = m) : l = m := by
  have length := congrArg List.length same
  rw [List.length_take] at length
  rw [← same,List.take_of_length_le (by omega)]

/-- The first path element of `/name`. -/
theorem skipelem_root {name : List Byte} (some : name ≠ []) (plain : slash ∉ name) (string : 0 ∉ name) (old : Buffer) :
    ∃ buf, skipelem (slash :: name) old = Option.some ([],buf) ∧ cname buf = name.take 14 := by
  have front : (slash :: name).dropWhile (· == slash) = name := by
    rw [List.dropWhile_cons_of_pos (by decide)]
    cases name with
    | nil => rfl
    | cons a name =>
      have other : a ≠ slash := fun same => plain (same ▸ List.mem_cons_self)
      exact List.dropWhile_cons_of_neg (by simpa using other)
  have all : ∀ a ∈ name, (a != slash) = true := by
    intro a inside
    have other : a ≠ slash := fun same => plain (same ▸ inside)
    simpa using other
  have whole : name.takeWhile (· != slash) = name := List.takeWhile_eq_self_iff.mpr all
  have rest : name.dropWhile (· != slash) = [] := List.dropWhile_eq_nil_iff.mpr all
  unfold skipelem
  rw [front]
  cases name with
  | nil => exact absurd rfl some
  | cons a name =>
    dsimp only
    rw [whole,rest]
    refine ⟨_,rfl,?_⟩
    generalize a :: name = l at string
    by_cases long : l.length ≥ dirsiz
    · rw [if_pos long]
      refine cname_eq string (fun i h => ?_)
      have copied := @blit_inside old (bytes l) 0 dirsiz i h
      rwa [Nat.zero_add] at copied
    · rw [if_neg long]
      have short : l.length < 14 := Nat.lt_of_not_le long
      refine cstring_eq string 14 0 (fun i _ few => ?_) (fun _ => ?_)
      · rw [Nat.zero_add,blit_outside (by omega)]
        have copied := @blit_inside old (bytes l) 0 l.length i few
        rwa [Nat.zero_add] at copied
      · rw [Nat.zero_add]
        exact @blit_inside (blit old 0 l.length (bytes l)) zeros l.length 1 0 (by omega)

theorem addFiles_plain {s s' : Mkfs} (ok : addFiles s files = some s') : ∀ f ∈ files, slash ∉ f.name := by
  induction files generalizing s with
  | nil => exact fun f inside => absurd inside List.not_mem_nil
  | cons g files ih =>
    unfold addFiles at ok
    split at ok
    · cases ok
    · rename_i step
      unfold addFile at step
      split at step
      · cases step
      · rename_i plain
        intro f inside
        rcases List.mem_cons.mp inside with rfl | later
        · exact plain
        · exact ih ok f later

end names

section lookup
variable {files : List Input} {image s : Mkfs} {st : FsState} {dp : Slot}

/-- The names of the files, as the root directory can hold them. -/
structure Titles (files : List Input) : Prop where
  proper : ∀ f ∈ files, strip f.name ≠ [] ∧ strip f.name ≠ [46] ∧ strip f.name ≠ [46,46]
  distinct : (files.map fun f => (strip f.name).take dirsiz).Nodup

theorem OnDisk.copy (finished : Finished files.length s image)
    (on : OnDisk rootdev (Superblock.decode (image.sectors 1)) image.sectors st) (named : Named rootdev dp st) :
    ((ilock st dp).icache dp).toDinode = image.volume.inode (st.icache dp).inum ∧
      Ready rootdev dp (ilock st dp) ∧ ((ilock st dp).icache dp).inum = (st.icache dp).inum := by
  have sound := finished.sound
  rw [← finished.volume on] at sound
  have ready := ilock_ready named sound
  have on' := on.loaded named
  have number := (ilock_calm st dp).inum dp
  have copy := FsState.volume_locked ready.unique ready.locked ready.place
  rw [finished.volume on',number] at copy
  exact ⟨copy.symm,ready,number⟩

/-- The entries of the root directory that are in use can be read. -/
theorem root_readable (lists : Lists files s) (finished : Finished files.length s image) (few : files.length ≤ 206)
    (on : OnDisk rootdev (Superblock.decode (image.sectors 1)) image.sectors st) (named : Named rootdev dp st)
    (root : (st.icache dp).inum = rootino) : Readable rootdev dp (16 * (files.length + 2)) (ilock st dp) := by
  obtain ⟨copy,ready,number⟩ := OnDisk.copy finished on named
  have on' := on.loaded named
  rw [root] at copy number
  obtain ⟨addrs,inode⟩ := lists.root
  have size := lists.size few
  refine ⟨ready,?_,on'.enough,fun bn inside => ?_,?_,Dvd.intro _ rfl⟩
  · rw [copy,finished.root,inode]
  · rw [finished.volume on',number,finished.refs lists (by decide),size]
    unfold needed
    omega
  · rw [copy,finished.root_size few]
    unfold rootSize
    omega

/-- Entry `j` of the root directory, as the kernel sees it. -/
theorem root_entry (lists : Lists files s) (finished : Finished files.length s image) (few : files.length ≤ 206)
    {name : Buffer} {j : Nat} (inside : j < files.length + 2) :
    (Matches (image.volume.byte rootino) name j ↔ cname name = ((names files).getD j []).take 14) ∧
      (le16 (entryAt (image.volume.byte rootino) j) 0).toNat = max 1 j := by
  have same : ∀ i < 16, entry files j i = entryAt (image.volume.byte rootino) j i := by
    intro i h
    unfold entryAt
    rw [finished.byte,lists.entries j inside i h]
  obtain ⟨number,title⟩ := entry_matches same
  obtain ⟨inum,called⟩ := entry_fields files (j := j) (by omega)
  rw [number] at inum
  unfold Matches
  rw [← title,called]
  refine ⟨⟨fun h => h.2,fun h => ⟨fun zero => ?_,h⟩⟩,inum⟩
  rw [zero] at inum
  have positive : 1 ≤ max 1 j := Nat.le_max_left 1 j
  rw [← inum] at positive
  exact absurd positive (by decide)

/-- No earlier entry has the name of file `i`. -/
theorem Titles.apart (titles : Titles files) {i l : Nat} (h : i < files.length) (before : l < i + 2) :
    (strip files[i].name).take 14 ≠ ((names files).getD l []).take 14 := by
  obtain ⟨_,dot,dots⟩ := titles.proper files[i] (List.getElem_mem h)
  match l, before with
  | 0, _ => exact fun same => dot (take_short (m := [46]) (by decide) same)
  | 1, _ => exact fun same => dots (take_short (m := [46,46]) (by decide) same)
  | l+2, before =>
    rw [names_file (i := l) (by omega)]
    intro same
    have hi : i < (files.map fun f => (strip f.name).take dirsiz).length := by rw [List.length_map]; exact h
    have hl : l < (files.map fun f => (strip f.name).take dirsiz).length := by rw [List.length_map]; omega
    have equal : (files.map fun f => (strip f.name).take dirsiz)[i] = (files.map fun f => (strip f.name).take dirsiz)[l] := by
      rw [List.getElem_map,List.getElem_map]
      exact same
    have := titles.distinct.getElem_inj_iff.mp equal
    omega

theorem namei_found (lists : Lists files s) (finished : Finished files.length s image) (few : files.length ≤ 206)
    (titles : Titles files) (mounted : Mounted image st) (cwd : Slot) {i : Nat} (h : i < files.length)
    (plain : slash ∉ files[i].name) : ∃ ip st', namei st cwd (slash :: strip files[i].name) = .ok (some ip,st') ∧
      OnDisk rootdev (Superblock.decode (image.sectors 1)) image.sectors st' ∧ Named rootdev ip st' ∧
      (st'.icache ip).inum = i + 2 := by
  obtain ⟨on,a,b,apart,freea,freeb⟩ := mounted
  have super : Superblock.decode (image.sectors 1) = sb := by rw [finished.super,superBlock_decode]
  have nonempty := (titles.proper files[i] (List.getElem_mem h)).1
  obtain ⟨buf,element,title⟩ := skipelem_root nonempty (fun inside => plain (strip_mem inside))
    (fun inside => files[i].string (strip_mem inside)) st.stack
  -- the root directory is referenced and loaded
  obtain ⟨dp,st₁,root⟩ := @iget_ok rootdev rootino st ⟨a,freea⟩
  have got := iget_got root
  have on₁ := on.got got
  have named : Named rootdev dp st₁ := by
    have names := got.names
    refine ⟨on₁.unique,names.1,names.2.1,?_⟩
    rw [names.2.2,on₁.sb,super]
    decide
  have readable := root_readable lists finished few on₁ named got.inum
  have on₂ := on₁.loaded named
  have number : ((ilock st₁ dp).icache dp).inum = rootino := ((ilock_calm st₁ dp).inum dp).trans got.inum
  -- its entry for the file is the first with the name
  have bytes : ((ilock st₁ dp).volume rootdev).byte ((ilock st₁ dp).icache dp).inum = image.volume.byte rootino := by
    rw [finished.volume on₂,number]
  have here := @root_entry files image s lists finished few buf (i + 2) (by omega)
  rw [names_file h] at here
  obtain ⟨st₃,idle,found⟩ := @dirlookupLoop_found rootdev (16 * (files.length + 2)) dp (ilock st₁ dp) buf (entries + 1)
    readable (ilock st₁ dp).stack 0 (i + 2) (Nat.zero_le _) (by omega) (by change _ < 0 + (268435456 + 1); omega)
    (fun l _ less => by
      rw [bytes,(root_entry lists finished few (by omega)).1,title]
      exact titles.apart h less)
    (by rw [bytes]; exact here.1.mpr title)
  rw [bytes,here.2,max_eq_right (by omega),← dirlookup_loop readable] at found
  have on₃ := on₂.idle idle
  -- a slot is left for the file
  obtain ⟨c,freec⟩ : ∃ c, (st₃.icache c).ref = 0 := by
    have kept (c : Slot) (free : (st.icache c).ref = 0) (away : c ≠ dp) : (st₃.icache c).ref = 0 := by
      rw [idle.icache,(ilock_calm st₁ dp).ref c,got.other c away]
      exact free
    by_cases same : a = dp
    · exact ⟨b,kept b freeb (fun h => apart (same.trans h.symm))⟩
    · exact ⟨a,kept a freea same⟩
  obtain ⟨ip,st₄,file⟩ := @iget_ok rootdev (i + 2) st₃ ⟨c,freec⟩
  have got₄ := iget_got file
  have on₄ := on₃.got got₄
  have held₃ : (st₃.icache dp).inum = rootino ∧ 0 < (st₃.icache dp).ref := by
    rw [idle.icache]
    exact ⟨number,readable.ready.locked.1⟩
  have distinct : dp ≠ ip := by
    rintro rfl
    rcases got₄.origin with ⟨names,_⟩ | ⟨_,zero,_⟩
    · have := names.2.2
      rw [held₃.1] at this
      change 1 = i + 2 at this
      omega
    · exact absurd held₃.2 (by omega)
  have same : st₄.icache dp = (ilock st₁ dp).icache dp := by rw [got₄.other dp distinct,idle.icache]
  have named₄ : Named rootdev dp st₄ := by
    refine ⟨on₄.unique,?_,?_,?_⟩
    · rw [same]
      exact readable.ready.locked.1
    · rw [same]
      exact readable.ready.locked.2.1
    · rw [same,on₄.sb,super,number]
      decide
  have linked : (st₄.icache dp).nlink ≠ 0 := by
    obtain ⟨addrs,inode⟩ := lists.root
    rw [same,(OnDisk.copy finished on₁ named).1,got.inum,finished.root,inode]
    change (1 : BitVec 16) ≠ 0
    decide
  have dropped := iunlockput_kept named₄ linked
  have on₅ := @OnDisk.drop rootdev _ _ st₄ dp on₄
  rw [← dropped] at on₅
  refine ⟨ip,iunlockput st₄ dp,?_,on₅,⟨on₅.unique,?_,?_,?_⟩,?_⟩
  · rw [file] at found
    unfold namei namex
    rw [if_pos (by rfl),root]
    dsimp only
    rw [got.stack,namexLoop,element]
    dsimp only
    rw [if_neg (fun h => h readable.type),if_neg (fun h => Bool.false_ne_true h.1),found]
    rfl
  all_goals rw [dropped]
  · rw [FsState.setInode_other _ _ _ _ distinct.symm]
    exact got₄.names.1
  · rw [FsState.setInode_other _ _ _ _ distinct.symm]
    exact got₄.names.2.1
  · rw [FsState.setInode_other _ _ _ _ distinct.symm,got₄.inum]
    change i + 2 < st₄.sb.slots
    rw [on₄.sb,super]
    change i + 2 < 208
    omega
  · rw [FsState.setInode_other _ _ _ _ distinct.symm]
    exact got₄.inum

/-- Images read back: the kernel finds every file with its bytes, the bitmap marks
the blocks below `freeblock`, and each data block of them is used once. -/
theorem image_reads_back (files : List Input) (image : Mkfs) (made : mkfs files = some image)
    (few : files.length ≤ ninodes - 2) (titles : Titles files) :
    (∀ st cwd, Mounted image st → ∀ f ∈ files, ∃ ip st', namei st cwd (slash :: strip f.name) = .ok (some ip,st') ∧
      ((ilock st' ip).icache ip).type = tFile ∧ ((ilock st' ip).icache ip).nlink = 1 ∧
      ((ilock st' ip).icache ip).size.toNat = f.data.length ∧
      ∀ dst o m, o ≤ f.data.length → o + m < 4294967296 →
        (readi (ilock st' ip) ip dst o m).1 = min m (f.data.length - o) ∧
        (readi (ilock st' ip) ip dst o m).2.1 =
          blit dst 0 (min m (f.data.length - o)) (fun i => bytes f.data (o + i))) ∧
    (∀ b < bpb, (image.sectors sb.bmapstart (b / 8)).getLsbD (b % 8) = true ↔ b < image.freeblock) ∧
    ∀ b, nmeta ≤ b → b < image.freeblock → ∃! q, image.volume.ref q = b := by
  have bound : files.length ≤ 198 := few
  have plain : ∀ f ∈ files, slash ∉ f.name := by
    unfold mkfs at made
    split at made
    · cases made
    · split at made
      · cases made
      · rename_i middle
        exact addFiles_plain middle
  obtain ⟨s,lists,finished⟩ := mkfs_finished (by omega) made
  refine ⟨fun st cwd mounted f inside => ?_,fun b small => ?_,fun b low high => ?_⟩
  · obtain ⟨i,h,rfl⟩ := List.getElem_of_mem inside
    obtain ⟨ip,st',found,on,named,number⟩ := namei_found lists finished (by omega) titles mounted cwd h (plain _ inside)
    obtain ⟨copy,ready,number'⟩ := OnDisk.copy finished on named
    obtain ⟨type,nlink,size⟩ := finished.file lists h
    have on' := on.loaded named
    rw [number] at copy number'
    have length : ((ilock st' ip).icache ip).size.toNat = files[i].data.length := by rw [copy,size]
    have small := (lists.file i h).1
    have filled : ((ilock st' ip).volume rootdev).Filled ((ilock st' ip).icache ip).inum := by
      obtain ⟨_,addrs,inode⟩ := lists.file i h
      rw [number',finished.volume on']
      intro bn less
      rw [size] at less
      rw [finished.refs lists (by omega),inode,BitVec.toNat_ofNat,Nat.mod_eq_of_lt (by omega)]
      unfold needed
      omega
    refine ⟨ip,st',found,by rw [copy,type],by rw [copy,nlink],length,fun dst o m inside wrap => ?_⟩
    obtain ⟨count,data⟩ := readi_content ready (by rw [copy,type]; decide) filled on'.enough dst
      (by rw [length]; exact inside) wrap
    rw [length] at count data
    refine ⟨count,data.trans (blit_congr fun j less => ?_)⟩
    rw [number',finished.volume on',finished.byte,lists.content i h _ (by omega)]
  · change (image.sectors 58 (b / 8)).getLsbD (b % 8) = true ↔ _
    rw [finished.bitmap,usedBits_bit,decide_eq_true_iff]
  · obtain ⟨q,used⟩ := finished.exact b low high
    refine ⟨q,used,fun r same => ?_⟩
    have nonzero : image.volume.ref r ≠ 0 := by
      change image.volume.ref r = b at same
      rw [same]
      change 59 ≤ b at low
      omega
    exact finished.owned.exclusive r q nonzero (same.trans used.symm)

end lookup

/-- The file `_a` with the bytes 7, 8 and 9. -/
def shortFile : Input := ⟨[95,97],[[7,8,9]],by decide,fun chunk inside => by
  rw [List.mem_singleton.mp inside]
  decide⟩

theorem image_reads_back_short : ∃ image k ip st', mkfs [shortFile] = some image ∧
    Kernel.uinit ⟨fun _ _ => .zero,fun _ => zeros,[],[]⟩ 1 2 (Kernel.cold (fun _ => image.sectors) zeros) = .ok k ∧
    namei k.fs k.proc.cwd [47,97] = .ok (some ip,st') ∧ ((ilock st' ip).icache ip).size.toNat = 3 := by
  obtain ⟨image,made⟩ := @mkfs_room [shortFile] (by decide) (by decide)
  have titles : Titles [shortFile] := ⟨by decide,by decide⟩
  obtain ⟨files,_,_⟩ := image_reads_back [shortFile] image made (by decide) titles
  have mounted : Mounted image (Kernel.uinitState _ 1 2 (fun _ => image.sectors) zeros).fs :=
    mounted_uinit rfl ⟨fun _ _ => .zero,fun _ => zeros,[],[]⟩ 1 2 zeros
  obtain ⟨ip,st',found,_,_,size,_⟩ := files _ 0 mounted shortFile (List.mem_singleton_self _)
  exact ⟨image,_,ip,st',made,Kernel.uinit_eq _ 1 2 _ zeros,found,size⟩

end Lxos.Utils
