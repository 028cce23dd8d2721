import Lxos.Utils.Append

/-! What the image holds after each file: the root directory lists the files so far,
and file `i` is inode `i+2`. The inode table has room for 206 files. -/
namespace Lxos.Utils
open Lxos.Bytes Lxos.Fs

section chunks
variable {s s' s'' : Mkfs} {k m n : Nat} {p q : Buffer}

theorem Append.nil (fit : Fit s) (p : Buffer) (k : Nat) : Append k 0 p s s where
  fit := fit
  room := fit.small k
  inode := ⟨_,by rw [Nat.add_zero,BitVec.ofNat_toNat,BitVec.setWidth_eq]⟩
  other := fun _ _ => rfl
  byte := fun o => (if_neg (by omega)).symm
  foreign := fun _ _ => rfl
  next := rfl
  grow := le_refl _

theorem Append.size (append : Append k n p s s') :
    (s'.volume.inode k).size.toNat = (s.volume.inode k).size.toNat + n := by
  obtain ⟨addrs,inode⟩ := append.inode
  have room := append.room
  rw [inode,BitVec.toNat_ofNat]
  omega

/-- Two appends are one. -/
theorem Append.append (first : Append k m p s s') (second : Append k n q s' s'') {r : Buffer}
    (left : ∀ i < m, r i = p i) (right : ∀ i < n, r (m + i) = q i) : Append k (m + n) r s s'' := by
  have size := first.size
  obtain ⟨a,ha⟩ := first.inode
  obtain ⟨b,hb⟩ := second.inode
  have room := second.room
  have bytes := second.byte
  rw [size] at room hb bytes
  refine ⟨second.fit,by omega,⟨b,by rw [hb,ha,Nat.add_assoc]⟩,fun j away => (second.other j away).trans (first.other j away),
    fun o => ?_,fun j away => (second.foreign j away).trans (first.foreign j away),second.next.trans first.next,
    first.grow.trans second.grow⟩
  rw [bytes,first.byte]
  generalize (s.volume.inode k).size.toNat = off
  rcases Nat.lt_or_ge o (off + m) with early | late
  · rw [if_neg (by omega)]
    by_cases inside : off ≤ o
    · rw [if_pos ⟨inside,early⟩,if_pos ⟨inside,by omega⟩,left _ (by omega)]
    · rw [if_neg (by omega),if_neg (by omega)]
  · by_cases inside : o < off + m + n
    · have index : o - off = m + (o - (off + m)) := by omega
      rw [if_pos ⟨late,inside⟩,if_pos ⟨by omega,by omega⟩,index,right _ (by omega)]
    · rw [if_neg (by omega),if_neg (by omega),if_neg (by omega)]

theorem bytes_append_left {l l' : List Byte} {i : Nat} (h : i < l.length) : bytes (l ++ l') i = bytes l i := by
  unfold bytes
  rw [List.getD_append _ _ _ _ h]

theorem bytes_append_right (l l' : List Byte) (i : Nat) : bytes (l ++ l') (l.length + i) = bytes l' i := by
  unfold bytes
  rw [List.getD_append_right _ _ _ _ (Nat.le_add_right _ _),Nat.add_sub_cancel_left]

/-- However the file is cut into chunks, its bytes are appended. -/
theorem appendChunks_spec {chunks : List (List Byte)} (fit : Fit s) (place : k < 208) (taken : k < s.freeinode)
    (ok : appendChunks s k chunks = some s') : Append k chunks.flatten.length (bytes chunks.flatten) s s' := by
  induction chunks generalizing s with
  | nil =>
    cases ok
    exact Append.nil fit _ k
  | cons chunk chunks ih =>
    unfold appendChunks at ok
    cases step : iappend s k (bytes chunk) chunk.length with
    | none => simp [step] at ok
    | some s₁ =>
      simp only [step] at ok
      have first := iappend_spec fit place taken step
      have rest := ih first.fit (first.next.symm ▸ taken) ok
      rw [List.flatten_cons,List.length_append]
      exact first.append rest (fun i h => bytes_append_left h) (fun i _ => bytes_append_right _ _ i)

end chunks

def Input.data (f : Input) : List Byte := f.chunks.flatten

/-- The names in the root directory. -/
def names (files : List Input) : List (List Byte) := [46] :: [46,46] :: files.map fun f => strip f.name

/-- Entry `j` of the root directory. The first two name the root itself. -/
def entry (files : List Input) (j : Nat) : Buffer := dirent (max 1 j) ((names files).getD j [])

structure Lists (files : List Input) (s : Mkfs) : Prop where
  fit : Fit s
  next : s.freeinode = files.length + 2
  root : ∃ addrs, s.volume.inode rootino = { Dinode.zero with
    type := tDir,nlink := 1,addrs := addrs,size := BitVec.ofNat 32 (16 * (files.length + 2)) }
  entries : ∀ j < files.length + 2, ∀ i < 16, s.volume.byte rootino (16 * j + i) = entry files j i
  file : ∀ i, (h : i < files.length) → files[i].data.length ≤ 71680 ∧ ∃ addrs, s.volume.inode (i + 2) =
    { Dinode.zero with type := tFile,nlink := 1,addrs := addrs,size := BitVec.ofNat 32 files[i].data.length }
  content : ∀ i, (h : i < files.length) → ∀ o < files[i].data.length,
    s.volume.byte (i + 2) o = bytes files[i].data o

section files
variable {files : List Input} {f : Input} {s s' : Mkfs}

theorem names_length (files : List Input) : (names files).length = files.length + 2 := by simp [names]

theorem entry_append {j : Nat} (h : j < files.length + 2) (f : Input) : entry (files ++ [f]) j = entry files j := by
  have more : names (files ++ [f]) = names files ++ [strip f.name] := by simp [names]
  unfold entry
  rw [more,List.getD_append _ _ _ _ (by rw [names_length]; exact h)]

theorem entry_last (files : List Input) (f : Input) :
    entry (files ++ [f]) (files.length + 2) = dirent (files.length + 2) (strip f.name) := by
  have more : names (files ++ [f]) = names files ++ [strip f.name] := by simp [names]
  have last : (names files ++ [strip f.name]).getD (files.length + 2) [] = strip f.name := by
    rw [List.getD_append_right _ _ _ _ (by rw [names_length]),names_length,Nat.sub_self]
    rfl
  unfold entry
  rw [more,last,max_eq_right (by omega)]

theorem Lists.size (lists : Lists files s) (few : files.length ≤ 206) :
    (s.volume.inode rootino).size.toNat = 16 * (files.length + 2) := by
  obtain ⟨addrs,root⟩ := lists.root
  rw [root,BitVec.toNat_ofNat]
  omega

theorem addFile_lists (lists : Lists files s) (few : files.length < 206) (ok : addFile s f = some s') :
    Lists (files ++ [f]) s' := by
  have next := lists.next
  have size := lists.size (by omega)
  unfold addFile at ok
  by_cases path : slash ∈ f.name
  · rw [if_pos path] at ok
    cases ok
  rw [if_neg path] at ok
  cases fresh : inoalloc s tFile with
  | none =>
    rw [fresh] at ok
    cases ok
  | some r =>
    obtain ⟨inum,s₁⟩ := r
    rw [fresh] at ok
    dsimp only at ok
    obtain ⟨fit₁,number,next₁,_,inode₁,other₁,byte₁⟩ := inoalloc_spec lists.fit (by omega) fresh
    rw [next] at number
    have apart : rootino ≠ inum := by
      change 1 ≠ inum
      omega
    cases entered : iappend s₁ rootino (dirent inum (strip f.name)) direntSize with
    | none => simp [entered] at ok
    | some s₂ =>
      simp only [entered] at ok
      have listed := iappend_spec fit₁ (by decide) (by change 1 < _; omega) entered
      have stored := appendChunks_spec listed.fit (by omega) (by rw [listed.next]; omega) ok
      have bytes₂ := listed.byte
      rw [other₁ rootino apart,size,byte₁] at bytes₂
      have empty : s₂.volume.inode inum = { Dinode.zero with type := tFile,nlink := 1 } :=
        (listed.other inum apart.symm).trans inode₁
      have none₂ : (s₂.volume.inode inum).size.toNat = 0 := by rw [empty]; rfl
      have kept (j : Nat) (root : j ≠ rootino) (away : j ≠ inum) : s'.volume.inode j = s.volume.inode j :=
        ((stored.other j away).trans (listed.other j root)).trans (other₁ j away)
      have bytes (j : Nat) (root : j ≠ rootino) (away : j ≠ inum) : s'.volume.byte j = s.volume.byte j :=
        ((stored.foreign j away).trans (listed.foreign j root)).trans (congrFun byte₁ j)
      have room := stored.room
      rw [none₂,Nat.zero_add] at room
      refine ⟨stored.fit,?_,?_,fun j h i bound => ?_,fun i h => ?_,fun i h o bound => ?_⟩
      · rw [stored.next,listed.next,next₁,next,List.length_append]
        rfl
      · obtain ⟨a,ha⟩ := listed.inode
        obtain ⟨b,hb⟩ := lists.root
        refine ⟨a,?_⟩
        rw [stored.other rootino apart,ha,other₁ rootino apart,size,hb,List.length_append]
        rfl
      · rw [stored.foreign rootino apart,bytes₂]
        rw [List.length_append] at h
        change j < files.length + 1 + 2 at h
        by_cases last : j = files.length + 2
        · have inside : 16 * (files.length + 2) ≤ 16 * j + i ∧ 16 * j + i < 16 * (files.length + 2) + direntSize := by
            change _ ∧ _ < _ + 16
            omega
          have index : 16 * (files.length + 2) + i - 16 * (files.length + 2) = i := Nat.add_sub_cancel_left _ _
          rw [if_pos inside,last,index,entry_last,number]
        · rw [if_neg (by omega),entry_append (by omega),lists.entries j (by omega) i bound]
      · rw [List.length_append] at h
        change i < files.length + 1 at h
        by_cases last : i = files.length
        · subst i
          have here : (files ++ [f])[files.length] = f := List.getElem_concat_length rfl _
          simp only [here,← number]
          obtain ⟨a,ha⟩ := stored.inode
          exact ⟨room,a,by rw [ha,none₂,empty,Nat.zero_add]; rfl⟩
        · have early : i < files.length := by omega
          rw [List.getElem_append_left early,kept (i + 2) (by change i + 2 ≠ 1; omega) (by omega)]
          exact lists.file i early
      · rw [List.length_append] at h
        change i < files.length + 1 at h
        by_cases last : i = files.length
        · subst i
          have here : (files ++ [f])[files.length] = f := List.getElem_concat_length rfl _
          rw [here] at bound
          simp only [here,← number]
          rw [stored.byte,none₂,if_pos ⟨Nat.zero_le _,by rw [Nat.zero_add]; exact bound⟩]
          rfl
        · have early : i < files.length := by omega
          rw [List.getElem_append_left early] at bound ⊢
          rw [bytes (i + 2) (by change i + 2 ≠ 1; omega) (by omega)]
          exact lists.content i early o bound

theorem addFiles_lists {before : List Input} (lists : Lists before s) (few : before.length + files.length ≤ 206)
    (ok : addFiles s files = some s') : Lists (before ++ files) s' := by
  induction files generalizing s before with
  | nil =>
    cases ok
    rw [List.append_nil]
    exact lists
  | cons f files ih =>
    rw [List.length_cons] at few
    unfold addFiles at ok
    cases step : addFile s f with
    | none => simp [step] at ok
    | some s₁ =>
      simp only [step] at ok
      have rest := ih (addFile_lists lists (by omega) step) (by rw [List.length_append]; change _ + 1 + _ ≤ _; omega) ok
      rw [List.append_assoc] at rest
      exact rest

end files

/-! The image before the first inode. -/
section start

theorem clear_sectors (n : Nat) : (clear n).sectors = fun _ => zeros := by
  induction n with
  | zero => rfl
  | succ n ih =>
    change Function.update (clear n).sectors _ zeros = _
    rw [ih]
    exact Function.update_eq_self _ _

theorem clear_rest {n : Nat} (small : n < 8388608) :
    (clear n).size = n ∧ (clear n).freeinode = 1 ∧ (clear n).freeblock = nmeta := by
  induction n with
  | zero => exact ⟨rfl,rfl,rfl⟩
  | succ n ih =>
    obtain ⟨size,inode,block⟩ := ih (by omega)
    refine ⟨?_,inode,block⟩
    change max (clear n).size (position n + 1) = n + 1
    rw [size,position_of_lt (by omega)]
    omega

/-- The superblock is written. -/
def empty : Mkfs := wsect (clear fssize) 1 superBlock

theorem empty_eq : wsect (clear fssize) 1 superBlock = empty := rfl

theorem wsect_rest (s : Mkfs) (sec : Nat) (buf : Block) : (wsect s sec buf).size = max s.size (position sec + 1) ∧
    (wsect s sec buf).freeinode = s.freeinode ∧ (wsect s sec buf).freeblock = s.freeblock := ⟨rfl,rfl,rfl⟩

theorem empty_rest : empty.size = 1000 ∧ empty.freeinode = 1 ∧ empty.freeblock = 59 := by
  obtain ⟨size,inode,block⟩ := @clear_rest fssize (by change 1000 < 8388608; omega)
  obtain ⟨size',inode',block'⟩ := wsect_rest (clear fssize) 1 superBlock
  unfold empty
  rw [size',inode',block',size,inode,block]
  exact ⟨rfl,rfl,rfl⟩

theorem empty_sectors : empty.sectors = Function.update (fun _ => zeros) 1 superBlock := by
  change Function.update (clear fssize).sectors (position 1) superBlock = _
  rw [clear_sectors]
  rfl

theorem empty_inode (k : Nat) : empty.volume.inode k = Dinode.zero := by
  by_cases bound : k < 208
  · have block := iblock_eq bound
    rw [Mkfs.volume_inode bound,Mkfs.inode,empty_sectors,Function.update_of_ne (by omega),Dinode.decode_zeros]
  · exact if_neg bound

theorem empty_ref (q : Nat × Nat) : empty.volume.ref q = 0 := by
  unfold Volume.ref Dinode.refAt
  simp only [empty_inode,Dinode.addr_zero,if_true,ite_self]

theorem empty_fit : Fit empty := by
  obtain ⟨size,_,counter⟩ := empty_rest
  refine ⟨⟨rfl,rfl,size,by omega,⟨layout,fun b h => ?_,?_,?_,?_⟩,fun b high => ?_,fun b low high => by omega⟩,
    fun k _ q => ?_,fun k => ?_,?_,fun k _ => empty_inode k⟩
  · rw [counter]
    exact h
  · exact fun q there => absurd (empty_ref q) there
  · exact fun q there => absurd (empty_ref q) there
  · exact fun q _ there => absurd (empty_ref q) there
  · rw [empty_sectors,Function.update_of_ne (by omega)]
  · rw [empty_ref,empty_inode]
    refine iff_of_false (fun h => h rfl) ?_
    change ¬(q < 140 ∧ q * 512 < 0 ∨ q = 140 ∧ 6144 < 0)
    omega
  · rw [empty_inode]
    exact Nat.zero_le _
  · rw [empty_sectors,Function.update_self]

theorem makeRoot_lists {s : Mkfs} (ok : makeRoot = some s) : Lists [] s := by
  have counter := empty_rest.2.1
  unfold makeRoot at ok
  rw [empty_eq] at ok
  cases fresh : inoalloc empty tDir with
  | none =>
    rw [fresh] at ok
    cases ok
  | some r =>
    obtain ⟨inum,s₁⟩ := r
    rw [fresh] at ok
    dsimp only at ok
    obtain ⟨fit₁,number,next₁,_,inode₁,other₁,byte₁⟩ := inoalloc_spec empty_fit (by omega) fresh
    rw [counter] at number
    subst number
    cases dot : iappend s₁ 1 (dirent 1 [46]) direntSize with
    | none =>
      rw [dot] at ok
      cases ok
    | some s₂ =>
      rw [dot] at ok
      dsimp only at ok
      have first := iappend_spec fit₁ (by decide) (by omega) dot
      have second := iappend_spec first.fit (by decide) (by rw [first.next]; omega) ok
      have size₁ : (s₁.volume.inode 1).size.toNat = 0 := by rw [inode₁]; rfl
      have size₂ : (s₂.volume.inode 1).size.toNat = 16 := by
        rw [first.size,size₁]
        rfl
      refine ⟨second.fit,by rw [second.next,first.next,next₁,counter]; rfl,?_,fun j h i bound => ?_,?_,?_⟩
      · obtain ⟨a,ha⟩ := first.inode
        obtain ⟨b,hb⟩ := second.inode
        exact ⟨b,by rw [hb,size₂,ha,inode₁]; rfl⟩
      · have bytes := first.byte
        rw [size₁] at bytes
        rw [second.byte,size₂,bytes]
        rcases (by change j < 2 at h; omega : j = 0 ∨ j = 1) with rfl | rfl
        · rw [if_neg (by omega),if_pos ⟨Nat.zero_le _,by change _ < 0 + 16; omega⟩]
          have index : 16 * 0 + i - 0 = i := by omega
          rw [index]
          rfl
        · rw [if_pos ⟨by omega,by change _ < 16 + 16; omega⟩]
          have index : 16 * 1 + i - 16 = i := by omega
          rw [index]
          rfl
      · exact fun i h => absurd h (Nat.not_lt_zero i)
      · exact fun i h => absurd h (Nat.not_lt_zero i)

end start

end Lxos.Utils
