import Lxos.Files.Runs
import Lxos.Kernel.Session
import Lxos.Kernel.Start

/-! The service on a fresh image: the files of the command line, in the root directory. Every
run of the kernel that starts on the image answers what this service answers. -/
namespace Lxos.Files
open Lxos.Bytes Lxos.Fs Lxos.Kernel Lxos.Utils Lxos.Outcome Lxos.Places Lxos.Simulation

/-- The entries of the root directory, of which the first two are for itself, and what is
left of its last block. -/
def listing (files : List Input) : List Byte :=
  ((names files).mapIdx fun j name => record (name.take dirsiz) (max 1 j)).flatten ++
    List.replicate (rootSize files.length - 16 * (files.length + 2)) 0

/-- Inode 1 is the root, and the files follow. -/
def fresh (files : List Input) : Nat → Node
  | 0 => ⟨0,0,0,0,[]⟩
  | 1 => ⟨tDir,0,0,1,listing files⟩
  | i+2 => (files[i]?).elim ⟨0,0,0,0,[]⟩ fun f => ⟨tFile,0,0,1,f.data⟩

/-- What `mkfs` has made. -/
def initial (files : List Input) : Service where
  ninodes := 200
  node := fresh files
  desc := fun _ => none
  cwd := rootino

section listing
variable {l : List (List Byte)} {files : List Input} {i j : Nat}

theorem bytes_flatten (even : ∀ x ∈ l, x.length = 16) (inside : j < l.length) (low : i < 16) :
    bytes l.flatten (16 * j + i) = bytes l[j] i := by
  induction l generalizing j with
  | nil => exact absurd inside (Nat.not_lt_zero j)
  | cons x l ih =>
    have first : x.length = 16 := even x List.mem_cons_self
    unfold bytes
    rw [List.flatten_cons]
    cases j with
    | zero =>
      rw [List.getD_append _ _ _ _ (by omega),Nat.mul_zero,Nat.zero_add]
      rfl
    | succ j =>
      have rest : 16 * (j + 1) + i - x.length = 16 * j + i := by omega
      rw [List.getD_append_right _ _ _ _ (by omega),rest]
      exact ih (fun y inner => even y (List.mem_cons_of_mem x inner)) (Nat.lt_of_succ_lt_succ inside)

theorem flatten_length (even : ∀ x ∈ l, x.length = 16) : l.flatten.length = 16 * l.length := by
  induction l with
  | nil => rfl
  | cons x l ih =>
    rw [List.flatten_cons,List.length_append,even x List.mem_cons_self,ih fun y inner => even y (List.mem_cons_of_mem x inner),
      List.length_cons]
    omega

theorem listing_even (files : List Input) :
    ∀ x ∈ (names files).mapIdx fun j name => record (name.take dirsiz) (max 1 j), x.length = 16 := by
  intro x inside
  obtain ⟨j,low,rfl⟩ := List.mem_mapIdx.mp inside
  exact record_length (List.length_take_le _ _)

theorem listing_front (files : List Input) :
    ((names files).mapIdx fun j name => record (name.take dirsiz) (max 1 j)).flatten.length = 16 * (files.length + 2) := by
  rw [flatten_length (listing_even files),List.length_mapIdx,names_length]

theorem listing_length (files : List Input) : (listing files).length = rootSize files.length := by
  unfold listing rootSize
  rw [List.length_append,listing_front,List.length_replicate]
  omega

theorem listing_entry (inside : j < files.length + 2) (width : files.length ≤ 206) (low : i < 16) :
    bytes (listing files) (16 * j + i) = entry files j i := by
  have named : j < (names files).length := by
    rw [names_length]
    exact inside
  have before : 16 * j + i < ((names files).mapIdx fun j name => record (name.take dirsiz) (max 1 j)).flatten.length := by
    rw [listing_front]
    omega
  have row : j < ((names files).mapIdx fun j name => record (name.take dirsiz) (max 1 j)).length := by
    rw [List.length_mapIdx]
    exact named
  have title : cname (bytes ((names files).getD j [])) = ((names files).getD j []).take dirsiz :=
    cname_eq (names_string files j) fun _ _ => rfl
  unfold listing
  rw [bytes_append before,bytes_flatten (listing_even files) row low,List.getElem_mapIdx]
  have same := @taken_dirent (bytes ((names files).getD j [])) (max 1 j) (by omega)
  rw [title,List.getD_eq_getElem _ _ named] at same
  rw [← same,bytes_taken (by change i < 16; exact low)]
  unfold entry
  rw [List.getD_eq_getElem _ _ named]
  rfl

theorem fresh_file (files : List Input) (i : Nat) :
    fresh files (i + 2) = (files[i]?).elim ⟨0,0,0,0,[]⟩ fun f => ⟨tFile,0,0,1,f.data⟩ := rfl

theorem listing_rest (past : 16 * (files.length + 2) ≤ i) : bytes (listing files) i = 0 := by
  unfold listing bytes
  rw [List.getD_append_right _ _ _ _ (by rw [listing_front]; exact past)]
  simp [List.getD_eq_getElem?_getD,List.getElem?_replicate]
  split <;> rfl

end listing

section image
variable {files : List Input} {image : Mkfs} {disk : Nat → Nat → Block}

/-- The nodes of an image. -/
theorem image_nodes (made : mkfs files = some image) (few : files.length ≤ 206) : node image.volume = fresh files := by
  obtain ⟨t,lists,finished,blank⟩ := mkfs_blank few made
  have free (k : Nat) (zero : image.volume.inode k = Dinode.zero) : node image.volume k = ⟨0,0,0,0,[]⟩ := by
    unfold node
    rw [zero]
    rfl
  funext k
  match k with
  | 0 =>
    exact free 0 ((finished.other 0 (by decide)).trans blank.first)
  | 1 =>
    obtain ⟨addrs,root⟩ := lists.root
    have inode := finished.root
    rw [root] at inode
    have size := finished.root_size few
    have data : (node image.volume 1).data = listing files := by
      refine data_ext (node_length.trans (size.trans (listing_length files).symm)) fun o inside => ?_
      rw [listing_length] at inside
      rw [node_byte (size.symm ▸ inside),finished.byte]
      rcases Nat.lt_or_ge o (16 * (files.length + 2)) with named | past
      · obtain ⟨j,i,low,rfl⟩ : ∃ j i, i < 16 ∧ o = 16 * j + i := ⟨o / 16,o % 16,by omega,by omega⟩
        rw [listing_entry (by omega) few low]
        exact lists.entries j (by omega) i low
      · rw [listing_rest past]
        refine blank.rest 1 o ?_
        have before := lists.size few
        change (t.volume.inode 1).size.toNat = _ at before
        omega
    ext1
    · exact congrArg Dinode.type inode
    · exact congrArg Dinode.major inode
    · exact congrArg Dinode.minor inode
    · exact congrArg Dinode.nlink inode
    · exact data
  | i + 2 =>
    have other := finished.other (i + 2) (by change i + 2 ≠ 1; omega)
    rcases Nat.lt_or_ge i files.length with inside | past
    · obtain ⟨short,addrs,inode⟩ := lists.file i inside
      rw [inode] at other
      obtain ⟨_,_,size⟩ := finished.file lists inside
      have data : (node image.volume (i + 2)).data = files[i].data := by
        refine data_ext (node_length.trans size) fun o low => ?_
        rw [node_byte (size.symm ▸ low),finished.byte]
        exact lists.content i inside o low
      have there : fresh files (i + 2) = ⟨tFile,0,0,1,files[i].data⟩ := by
        rw [fresh_file,List.getElem?_eq_getElem inside]
        rfl
      rw [there]
      ext1
      · exact congrArg Dinode.type other
      · exact congrArg Dinode.major other
      · exact congrArg Dinode.minor other
      · exact congrArg Dinode.nlink other
      · exact data
    · have there : fresh files (i + 2) = ⟨0,0,0,0,[]⟩ := by
        rw [fresh_file,List.getElem?_eq_none past]
        rfl
      rw [there]
      exact free (i + 2) (other.trans (lists.fit.unused (i + 2) (by rw [lists.next]; omega)))

theorem service_initial (made : mkfs files = some image) (few : files.length ≤ 206) (device : disk rootdev = image.sectors)
    (m : Vm) (kstack pgdir : Page) (stack : Buffer) :
    service (uinitState m kstack pgdir disk stack) = initial files := by
  obtain ⟨t,lists,finished,blank⟩ := mkfs_blank few made
  have on := (mounted_uinit device m kstack pgdir stack).on
  ext1
  · change (uinitState m kstack pgdir disk stack).fs.sb.ninodes = 200
    rw [on.sb,finished.super,superBlock_decode]
    rfl
  · change node ((uinitState m kstack pgdir disk stack).fs.volume rootdev) = fresh files
    rw [finished.volume on]
    exact image_nodes made few
  · rfl
  · rfl

theorem initial_sound (files : List Input) : (initial files).Sound := by
  refine ⟨(by decide : 200 ≤ 65536),fun i => ?_,fun fd d wrong => by cases wrong⟩
  change (fresh files i).type = 0 ∨ (fresh files i).type = tDir ∨ (fresh files i).type = tFile ∨ (fresh files i).type = tDev
  match i with
  | 0 => exact Or.inl rfl
  | 1 => exact Or.inr (Or.inl rfl)
  | i + 2 =>
    rw [fresh_file]
    cases files[i]? with
    | none => exact Or.inl rfl
    | some f => exact Or.inr (Or.inr (Or.inl rfl))

/-- The entries of the root directory, as a map. -/
theorem listing_table (width : files.length ≤ 206) {j : Nat} (inside : j < files.length + 2) :
    table (bytes (listing files)) j = some (((names files).getD j []).take 14,max 1 j) := by
  have same : ∀ i < 16, entry files j i = entryAt (bytes (listing files)) j i := fun i low =>
    (listing_entry inside width low).symm
  obtain ⟨number,title⟩ := entry_matches same
  obtain ⟨inum,called⟩ := entry_fields files (j := j) (by omega)
  have used : le16 (entryAt (bytes (listing files)) j) 0 ≠ 0 := by
    rw [← number]
    intro zero
    rw [zero] at inum
    have positive : 1 ≤ max 1 j := Nat.le_max_left 1 j
    rw [← inum] at positive
    exact absurd positive (by decide)
  unfold table
  rw [if_neg used,← title,called,← number,inum]

theorem mkfs_plain (made : mkfs files = some image) : ∀ f ∈ files, slash ∉ f.name := by
  unfold mkfs at made
  split at made
  · cases made
  · split at made
    · cases made
    · rename_i middle
      exact addFiles_plain middle

/-- Each file is found under its name. -/
theorem initial_resolve (made : mkfs files = some image) (width : files.length ≤ 206) (titles : Titles files) {i : Nat}
    (inside : i < files.length) : (initial files).resolve (slash :: strip files[i].name) = some (i + 2) := by
  have plain : slash ∉ strip files[i].name := fun there => mkfs_plain made _ (List.getElem_mem inside) (strip_mem there)
  have some_name := (titles.proper files[i] (List.getElem_mem inside)).1
  have parts : components (slash :: strip files[i].name) = [strip files[i].name] := by
    have cut := @Words.words_append Byte (· == slash) slash (strip files[i].name) [] (fun x wrong => by cases wrong) (by decide)
    rw [if_pos rfl] at cut
    have one := @Words.words_word Byte (· == slash) (strip files[i].name)
      (fun x there => beq_eq_false_iff_ne.mpr fun same => plain (same ▸ there)) some_name
    exact cut.trans one
  have entry : (fresh files 1).entry (strip files[i].name) = some (i + 2) := by
    have here := @listing_table files width (i + 2) (by omega)
    rw [names_file inside,max_eq_right (by omega)] at here
    have found : find (table (bytes (listing files))) (rootSize files.length / 16) ((strip files[i].name).take dirsiz) =
        some (i + 2,i + 2) := by
      refine find_some.mpr ⟨?_,here,fun j low w => ?_⟩
      · unfold rootSize
        omega
      · rw [listing_table width (by omega)]
        intro same
        exact titles.apart inside low (congrArg Prod.fst (Option.some.inj same)).symm
    unfold Node.entry fresh
    dsimp only
    rw [if_pos rfl,listing_length,found]
    rfl
  unfold Service.resolve Service.walk Service.start
  rw [parts]
  change [strip files[i].name].foldlM (fun i => (fresh files i).entry) 1 = _
  rw [List.foldlM_cons,entry]
  rfl

theorem initial_roomy (few : files.length ≤ 198) : (initial files).Roomy := by
  have spare : (initial files).spare ≤ 200 := by
    unfold Service.spare
    exact (Finset.card_filter_le _ _).trans (le_of_eq (Finset.card_range 200))
  intro d directory
  change (fresh files d).type = tDir at directory
  change (fresh files d).data.length + _ ≤ _
  match d with
  | 0 => cases directory
  | 1 =>
    have length : (fresh files 1).data.length = rootSize files.length := listing_length files
    rw [length]
    unfold rootSize
    omega
  | i + 2 =>
    rw [fresh_file] at directory
    cases file : files[i]? with
    | none =>
      rw [file] at directory
      cases directory
    | some f =>
      rw [file] at directory
      cases directory

end image

section kernel
variable {files : List Input} {image : Mkfs} {disk : Nat → Nat → Block} {data size : Nat} {first kpgdir : Page} {init stack : Buffer}
  {m : Vm} {k₀ k k' : State} {log : List (Request × (Int × Output))}

theorem boot_uinit (booted : boot data first init size (cold disk stack) m = .ok (kpgdir,k₀)) :
    ∃ m' kstack pgdir, k₀ = uinitState m' kstack pgdir disk stack := by
  unfold boot at booted
  split at booted
  · cases booted
  · cases booted
  · split at booted
    · cases booted
    · split at booted
      · cases booted
      · cases booted
      · split at booted
        · cases booted
        · rw [uinit_eq] at booted
          exact ⟨_,_,_,(congrArg Prod.snd (Except.ok.inj booted)).symm⟩

/-- The kernel has booted from an image of these files. -/
structure Booted (files : List Input) (data : Nat) (k₀ : State) : Prop where
  few : files.length ≤ 198
  linked : Linked data
  booted : ∃ (image : Mkfs) (disk : Nat → Nat → Block) (first kpgdir : Page) (init stack : Buffer) (size : Nat) (m : Vm),
    mkfs files = some image ∧ disk rootdev = image.sectors ∧ m.freelist = [] ∧ m.refused = [] ∧
    boot data first init size (cold disk stack) m = .ok (kpgdir,k₀)

theorem Booted.serving (booted : Booted files data k₀) : (∃ all kpgdir,
    Serving all kpgdir (Titles files) (· = rootino) [((0 : Slot),rootino)] k₀.fs k₀) ∧ service k₀ = initial files := by
  obtain ⟨few,linked,image,disk,first,kpgdir,init,stack,size,m,made,device,unused,willing,ok⟩ := booted
  obtain ⟨paged,safe⟩ := (boot_spec linked unused willing).elim ok
  obtain ⟨m',kstack,pgdir,rfl⟩ := boot_uinit ok
  have same := service_initial made (by omega) device m' kstack pgdir stack
  refine ⟨⟨managed first,kpgdir,paged,safe,fun _ => uinitState_settled made few device m' kstack pgdir stack,fun _ => ?_,
    fun _ => ?_⟩,same⟩
  · rw [same]
    exact initial_sound files
  · rw [same]
    exact initial_roomy few

end kernel

/-- A program of one page with `mem` in it, and its stack at the start. -/
def program (mem : Buffer) (k : State) : State := { k with
  vm := { k.vm with frame := fun _ => mem,refused := [] }
  proc := { k.proc with esp := 0 } }

section program
variable {mem : Buffer} {k : State} {a l n : Nat} {path : List Byte}

theorem program_byte (resident : Resident k) (size : k.proc.sz = 4096) (low : a < 4096) : userByte (program mem k) a = mem a := by
  obtain ⟨⟨page,o⟩,here⟩ := Option.isSome_iff_exists.mp (resident.present a (by omega))
  have place : o = a % pgsize := by
    unfold Kernel.translate at here
    dsimp only at here
    split at here
    · exact (Prod.mk.inj (Option.some.inj here)).2.symm
    · cases here
  have same : translate (program mem k).vm (program mem k).proc.pgdir a = some (page,o) := here
  unfold userByte
  rw [same,place]
  exact congrArg mem (Nat.mod_eq_of_lt low)

theorem program_word (resident : Resident k) (size : k.proc.sz = 4096) (low : n ≤ 2) :
    word (program mem k) n = some (le32 mem (4 + 4 * n)).toNat := by
  have place : u32 ((program mem k).proc.esp + 4 + 4 * n) = 4 + 4 * n := by
    change (0 + 4 + 4 * n) % 4294967296 = _
    omega
  have room : u32 (4 + 4 * n + 4) = 8 + 4 * n := by
    unfold u32
    omega
  have same : le32 (userMem (program mem k) (4 + 4 * n)) 0 = le32 (fun i => mem (4 + 4 * n + i)) 0 :=
    le32_congr fun i low => program_byte resident size (by omega)
  unfold word
  rw [place,room,same]
  exact if_neg (by change ¬(4 + 4 * n ≥ k.proc.sz ∨ 8 + 4 * n > k.proc.sz); omega)

theorem program_text (resident : Resident k) (size : k.proc.sz = 4096) (place : (le32 mem 4).toNat = a) (room : a + l < 4096)
    (before : ∀ j < l, mem (a + j) ≠ 0) (zero : mem (a + l) = 0) (same : (List.range l).map (fun i => mem (a + i)) = path) :
    text (program mem k) 0 = some path := by
  have found : (List.range ((program mem k).proc.sz - a)).find? (fun i => userByte (program mem k) (a + i) = 0) = some l := by
    refine List.find?_range_eq_some.mpr ⟨decide_eq_true ?_,List.mem_range.mpr ?_,fun j low => ?_⟩
    · rw [program_byte resident size room]
      exact zero
    · change l < k.proc.sz - a
      omega
    · rw [program_byte resident size (by omega)]
      simpa using before j low
  unfold text
  rw [program_word resident size (by decide)]
  change Option.bind (some (le32 mem 4).toNat) _ = _
  rw [place]
  change Option.map _ _ = _
  rw [found,← same]
  refine congrArg some (List.map_congr_left fun i low => ?_)
  exact program_byte resident size (by have := List.mem_range.mp low; omega)

/-- A program of zeros asks for the directory that it is in. -/
theorem program_zeros (resident : Resident k) (size : k.proc.sz = 4096) :
    request (program zeros k) .open_ = some (.open_ [] 0) := by
  have path : text (program zeros k) 0 = some [] :=
    program_text (a := 0) (l := 0) resident size rfl (by decide) (fun j low => absurd low (Nat.not_lt_zero j)) rfl rfl
  unfold request
  rw [path,program_word resident size (by decide)]
  rfl

end program

/-- A kernel of 176 KB on an image of one file, just booted. -/
theorem booted_short : ∃ k₀, Booted [shortFile] 2148597760 k₀ ∧ k₀.proc.sz = 4096 ∧ k₀.fs.exhausted = false := by
  obtain ⟨image,made⟩ := @mkfs_room [shortFile] (by decide) (by decide)
  obtain ⟨⟨kpgdir,k₀⟩,booted⟩ : ∃ r, boot 2148597760 300 zeros 0 (cold (fun _ => image.sectors) zeros)
    ⟨fun _ _ => .zero,fun _ => zeros,[],[]⟩ = .ok r := boots linked_example rfl rfl (by decide)
  obtain ⟨m,kstack,pgdir,same⟩ := boot_uinit booted
  refine ⟨k₀,⟨by decide,linked_example,image,_,300,kpgdir,zeros,zeros,0,_,made,rfl,rfl,rfl,booted⟩,?_⟩
  rw [same]
  exact ⟨rfl,rfl⟩

theorem Booted.resident {files : List Input} {data : Nat} {k₀ k : State} (booted : Booted files data k₀)
    (run : Run data k₀ k) : Resident k := by
  obtain ⟨⟨all,kpgdir,serving⟩,_⟩ := booted.serving
  exact (serving.run root_marked booted.linked run).1.paged.resident

end Lxos.Files
