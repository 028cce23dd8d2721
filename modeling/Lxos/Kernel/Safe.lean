import Lxos.Kernel.Guard
import Lxos.Kernel.Arguments
import Lxos.Library.Inventory
import Mathlib.Data.Fintype.Card

/-! System calls keep an invariant of the file system. The handles held between
two calls are those of the open files and the working directory; the table of
open files and the descriptors name each other. -/
namespace Lxos.Kernel
open Lxos.Bytes Lxos.Fs Lxos.Outcome Lxos.Inventory

def File.handle (v : File) : Option Handle :=
  if 0 < v.ref ∧ v.type = .inode then some (v.ip,if v.writable then .write else .read) else none

def opened (file : FileId → File) : List Handle := inventory (List.finRange nfile) (fun f => (file f).handle)

def State.handles (k : State) : List Handle := (k.proc.cwd,.cwd) :: opened k.file

/-- The descriptors name distinct files, each referenced once; the other files are free. -/
structure Table (file : FileId → File) (ofile : Fin nofile → Option FileId) : Prop where
  distinct : ∀ a b f, ofile a = some f → ofile b = some f → a = b
  taken : ∀ a f, ofile a = some f → (file f).ref = 1 ∧ (file f).type = .inode
  free : ∀ f, (∀ a, ofile a ≠ some f) → (file f).ref = 0 ∧ (file f).type = .none

structure Safe (Inv : List Handle → FsState → Prop) (k : State) : Prop where
  table : Table k.file k.proc.ofile
  inv : Inv k.handles k.fs

section table
variable {file : FileId → File} {ofile : Fin nofile → Option FileId} {f : FileId} {v : File}

theorem opened_same (same : v.handle = (file f).handle) : opened (Function.update file f v) = opened file := by
  refine inventory_congr fun g _ => ?_
  rcases eq_or_ne g f with rfl | apart
  · rw [Function.update_self,same]
  · rw [Function.update_of_ne apart]

theorem opened_put {h : Handle} (before : (file f).handle = none) (after : v.handle = some h) :
    (opened (Function.update file f v)).Perm (h :: opened file) := by
  refine inventory_put (List.nodup_finRange nfile) (List.mem_finRange f) before ?_ fun g _ apart => ?_
  · rw [Function.update_self,after]
  · rw [Function.update_of_ne apart]

theorem opened_take {h : Handle} (before : (file f).handle = some h) (after : v.handle = none) :
    (opened file).Perm (h :: opened (Function.update file f v)) := by
  refine inventory_take (List.nodup_finRange nfile) (List.mem_finRange f) before ?_ fun g _ apart => ?_
  · rw [Function.update_self,after]
  · rw [Function.update_of_ne apart]

/-- There are as many files in use as descriptors at most. -/
theorem Table.few (table : Table file ofile) :
    ((Finset.univ : Finset FileId).filter (fun f => (file f).ref ≠ 0)).card ≤ 16 := by
  have inside : ((Finset.univ : Finset FileId).filter (fun f => (file f).ref ≠ 0)).map ⟨some,Option.some_injective _⟩ ⊆
      Finset.univ.image ofile := by
    intro o member
    obtain ⟨f,used,rfl⟩ := Finset.mem_map.mp member
    by_contra absent
    refine (Finset.mem_filter.mp used).2 (table.free f fun a named => absent ?_).1
    exact Finset.mem_image.mpr ⟨a,Finset.mem_univ a,named⟩
  calc
    _ = (((Finset.univ : Finset FileId).filter (fun f => (file f).ref ≠ 0)).map ⟨some,Option.some_injective _⟩).card :=
      (Finset.card_map _).symm
    _ ≤ (Finset.univ.image ofile).card := Finset.card_le_card inside
    _ ≤ (Finset.univ : Finset (Fin nofile)).card := Finset.card_image_le
    _ = 16 := by rw [Finset.card_univ,Fintype.card_fin]

theorem Table.room (table : Table file ofile) : (opened file).length ≤ 16 := by
  refine le_trans ?_ table.few
  unfold opened inventory
  rw [List.length_filterMap_eq_countP,List.countP_eq_length_filter]
  have nodup : ((List.finRange nfile).filter (fun f => ((file f).handle).isSome)).Nodup :=
    (List.nodup_finRange nfile).filter _
  rw [← List.toFinset_card_of_nodup nodup]
  refine Finset.card_le_card fun f member => ?_
  have used := (List.mem_filter.mp (List.mem_toFinset.mp member)).2
  refine Finset.mem_filter.mpr ⟨Finset.mem_univ f,fun zero => ?_⟩
  simp [File.handle,zero] at used

theorem Table.spare (table : Table file ofile) : ∃ f, (file f).ref = 0 := by
  by_contra full
  have all : (Finset.univ : Finset FileId).filter (fun f => (file f).ref ≠ 0) = Finset.univ :=
    Finset.filter_true_of_mem fun f _ zero => full ⟨f,zero⟩
  have few := table.few
  rw [all,Finset.card_univ,Fintype.card_fin] at few
  exact absurd few (by decide)

/-- Changing a file in use otherwise than in its count and type. -/
theorem Table.update (table : Table file ofile) (ref : v.ref = (file f).ref) (type : v.type = (file f).type) :
    Table (Function.update file f v) ofile := by
  have same (g : FileId) : (Function.update file f v g).ref = (file g).ref ∧
      (Function.update file f v g).type = (file g).type := by
    rcases eq_or_ne g f with rfl | apart
    · rw [Function.update_self]
      exact ⟨ref,type⟩
    · rw [Function.update_of_ne apart]
      exact ⟨rfl,rfl⟩
  refine ⟨table.distinct,fun a g named => ?_,fun g absent => ?_⟩
  · rw [(same g).1,(same g).2]
    exact table.taken a g named
  · rw [(same g).1,(same g).2]
    exact table.free g absent

theorem Table.open (table : Table file ofile) {a : Fin nofile} (vacant : ofile a = none) (zero : (file f).ref = 0)
    (ref : v.ref = 1) (type : v.type = .inode) :
    Table (Function.update file f v) (Function.update ofile a (some f)) := by
  have unnamed (b : Fin nofile) : ofile b ≠ some f := by
    intro named
    have := (table.taken b f named).1
    omega
  refine ⟨fun b c g hb hc => ?_,fun b g named => ?_,fun g absent => ?_⟩
  · rcases eq_or_ne b a with rfl | left
    · rcases eq_or_ne c b with rfl | right
      · rfl
      · rw [Function.update_self] at hb
        rw [Function.update_of_ne right,← Option.some.inj hb] at hc
        exact absurd hc (unnamed c)
    · rw [Function.update_of_ne left] at hb
      rcases eq_or_ne c a with rfl | right
      · rw [Function.update_self] at hc
        rw [← Option.some.inj hc] at hb
        exact absurd hb (unnamed b)
      · rw [Function.update_of_ne right] at hc
        exact table.distinct b c g hb hc
  · rcases eq_or_ne g f with rfl | apart
    · rw [Function.update_self]
      exact ⟨ref,type⟩
    · rw [Function.update_of_ne apart]
      rcases eq_or_ne b a with rfl | left
      · rw [Function.update_self] at named
        exact absurd (Option.some.inj named).symm apart
      · rw [Function.update_of_ne left] at named
        exact table.taken b g named
  · have apart : g ≠ f := by
      rintro rfl
      exact absent a (Function.update_self _ _ _)
    rw [Function.update_of_ne apart]
    refine table.free g fun b named => absent b ?_
    have other : b ≠ a := by
      rintro rfl
      rw [vacant] at named
      cases named
    rw [Function.update_of_ne other,named]

theorem Table.close (table : Table file ofile) {a : Fin nofile} (named : ofile a = some f)
    (ref : v.ref = 0) (type : v.type = .none) :
    Table (Function.update file f v) (Function.update ofile a none) := by
  have before {b : Fin nofile} {g : FileId} (h : Function.update ofile a none b = some g) : b ≠ a ∧ ofile b = some g := by
    rcases eq_or_ne b a with rfl | apart
    · rw [Function.update_self] at h
      cases h
    · rw [Function.update_of_ne apart] at h
      exact ⟨apart,h⟩
  refine ⟨fun b c g hb hc => table.distinct b c g (before hb).2 (before hc).2,fun b g h => ?_,fun g absent => ?_⟩
  · have apart : g ≠ f := by
      rintro rfl
      exact (before h).1 (table.distinct b a g (before h).2 named)
    rw [Function.update_of_ne apart]
    exact table.taken b g (before h).2
  · rcases eq_or_ne g f with rfl | apart
    · rw [Function.update_self]
      exact ⟨ref,type⟩
    · rw [Function.update_of_ne apart]
      refine table.free g fun b h => absent b ?_
      have other : b ≠ a := by
        rintro rfl
        exact apart (Option.some.inj (h.symm.trans named))
      rw [Function.update_of_ne other,h]

end table

/-- The address space stays, and user memory is accessed below its size only. -/
structure Remains (k k' : State) : Prop where
  table : k'.vm.table = k.vm.table
  freelist : k'.vm.freelist = k.vm.freelist
  sz : k'.proc.sz = k.proc.sz
  pgdir : k'.proc.pgdir = k.proc.pgdir
  kstack : k'.proc.kstack = k.proc.kstack
  inside : k.proc.sz ≤ 2147483648 → ∀ r ∈ k'.touched, r ∈ k.touched ∨ r.1 + r.2 ≤ k.proc.sz

section calls
variable {Inv : List Handle → FsState → Prop} {k k' k'' : State} {f : FileId} {ip : Slot} {m : Mode}

theorem Accessed.remains (accessed : Accessed k k') : Remains k k' := by
  refine ⟨?_,?_,?_,?_,?_,accessed.inside⟩
  all_goals rw [accessed.same]

theorem Remains.refl (k : State) : Remains k k := (Accessed.refl k).remains

theorem Remains.trans (first : Remains k k') (second : Remains k' k'') : Remains k k'' where
  table := second.table.trans first.table
  freelist := second.freelist.trans first.freelist
  sz := second.sz.trans first.sz
  pgdir := second.pgdir.trans first.pgdir
  kstack := second.kstack.trans first.kstack
  inside := by
    intro limit r member
    rcases second.inside (by rw [first.sz]; exact limit) r member with before | below
    · exact first.inside limit r before
    · rw [first.sz] at below
      exact Or.inr below

/-- The file system and the open files are no part of the address space. -/
theorem Remains.keep (k : State) (fs : FsState) (file : FileId → File) (ofile : Fin nofile → Option FileId) :
    Remains k { k with fs := fs,file := file,proc := { k.proc with ofile := ofile } } :=
  ⟨rfl,rfl,rfl,rfl,rfl,fun _ _ => Or.inl⟩

theorem Safe.accessed (safe : Safe Inv k) (accessed : Accessed k k') : Safe Inv k' := by
  obtain ⟨table,inv⟩ := safe
  rw [accessed.same]
  exact ⟨table,inv⟩

theorem Safe.room (safe : Safe Inv k) : k.handles.length < 48 := by
  have := safe.table.room
  rw [State.handles,List.length_cons]
  omega

theorem filealloc_spare (table : Table k.file k.proc.ofile) :
    ∃ f, (k.file f).ref = 0 ∧ filealloc k = some (f,k.setFile f { k.file f with ref := 1 }) := by
  unfold filealloc
  cases found : (List.finRange nfile).find? (fun f => (k.file f).ref == 0) with
  | some f => exact ⟨f,by simpa using List.find?_some found,rfl⟩
  | none =>
    obtain ⟨f,zero⟩ := table.spare
    have := List.find?_eq_none.mp found f (List.mem_finRange f)
    simp [zero] at this

/-- The last reference to an open file is dropped. -/
theorem fileclose_last (one : (k.file f).ref = 1) : fileclose k f =
    if (k.file f).type = .inode then { k.setFile f { k.file f with ref := 0,type := .none } with
      fs := iput k.fs (k.file f).ip }
    else k.setFile f { k.file f with ref := 0,type := .none } := by
  have drop : ¬(k.file f).ref - 1 > 0 := by omega
  simp only [fileclose,State.setFile,Function.update_self,drop,if_false,Function.update_idem]

theorem handles_put {v : File} {h : Handle} (before : (k.file f).handle = none) (after : v.handle = some h) :
    ((k.proc.cwd,Mode.cwd) :: opened (Function.update k.file f v)).Perm (h :: k.handles) :=
  ((opened_put before after).cons _).trans (List.Perm.swap _ _ _)

theorem handles_take {v : File} {h : Handle} (before : (k.file f).handle = some h) (after : v.handle = none) :
    k.handles.Perm (h :: (k.proc.cwd,Mode.cwd) :: opened (Function.update k.file f v)) :=
  ((opened_take before after).cons _).trans (List.Perm.swap _ _ _)

/-- The file that `sys_open` puts in the table. -/
def newFile (ip : Slot) (omode : Nat) : File where
  type := .inode
  ref := 1
  readable := !omode.testBit 0
  writable := omode.testBit 0 || omode.testBit 1
  ip := ip
  off := 0

/-- Without a free descriptor the inode is given back; there is always a free file. -/
theorem openFile_first (table : Table k.file k.proc.ofile) (ip : Slot) (omode : Nat) :
    (List.finRange nofile).find? (fun fd => (k.proc.ofile fd).isNone) = none ∧
      openFile k ip omode = (-1,{ k with fs := iunlockput k.fs ip }) ∨
    ∃ (fd : Fin nofile) (f : FileId), (List.finRange nofile).find? (fun fd => (k.proc.ofile fd).isNone) = some fd ∧
      (k.file f).ref = 0 ∧ openFile k ip omode = ((fd.val : Int),{ k with
        fs := iunlock k.fs ip
        file := Function.update k.file f (newFile ip omode)
        proc := { k.proc with ofile := Function.update k.proc.ofile fd (some f) } }) := by
  obtain ⟨f,zero,alloc⟩ := filealloc_spare table
  have free := table.free f fun a named => by
    have := (table.taken a f named).1
    omega
  unfold Kernel.openFile
  rw [alloc]
  dsimp only [fdalloc,State.setFile]
  cases vacant : (List.finRange nofile).find? (fun fd => (k.proc.ofile fd).isNone) with
  | none =>
    have closed : fileclose (k.setFile f { k.file f with ref := 1 }) f = k := by
      have one : ((k.setFile f { k.file f with ref := 1 }).file f).ref = 1 := by
        simp [State.setFile]
      rw [fileclose_last one]
      simp only [State.setFile,Function.update_self,free.2,Function.update_idem,reduceCtorEq,if_false]
      rw [← free.2,← free.1,Function.update_eq_self]
    dsimp only
    unfold State.setFile at closed
    rw [closed]
    exact Or.inl ⟨rfl,rfl⟩
  | some fd =>
    dsimp only
    rw [Function.update_idem,Function.update_self]
    exact Or.inr ⟨fd,f,rfl,zero,rfl⟩

theorem openFile_cases (table : Table k.file k.proc.ofile) (ip : Slot) (omode : Nat) :
    openFile k ip omode = (-1,{ k with fs := iunlockput k.fs ip }) ∨
    ∃ (fd : Fin nofile) (f : FileId), k.proc.ofile fd = none ∧ (k.file f).ref = 0 ∧
      openFile k ip omode = ((fd.val : Int),{ k with
        fs := iunlock k.fs ip
        file := Function.update k.file f (newFile ip omode)
        proc := { k.proc with ofile := Function.update k.proc.ofile fd (some f) } }) := by
  rcases openFile_first table ip omode with ⟨_,failed⟩ | ⟨fd,f,vacant,zero,opened⟩
  · exact Or.inl failed
  · exact Or.inr ⟨fd,f,by simpa using List.find?_some vacant,zero,opened⟩

theorem Safe.openFile (guard : Guard Inv) (table : Table k.file k.proc.ofile)
    (inv : Inv ((ip,m) :: k.handles) k.fs) (given : m ≠ .cwd) {omode : Nat}
    (writable : (omode.testBit 0 || omode.testBit 1) = true → m = .write) :
    Safe Inv (openFile k ip omode).2 ∧ Remains k (openFile k ip omode).2 := by
  have reader := guard.reader inv given
  rcases openFile_cases table ip omode with failed | ⟨fd,f,vacant,zero,opened⟩
  · rw [failed]
    exact ⟨⟨table,guard.unlockput reader⟩,Remains.keep k _ _ _⟩
  · rw [opened]
    have allowed : Inv ((ip,if omode.testBit 0 || omode.testBit 1 then .write else .read) :: k.handles) k.fs := by
      split
      · rename_i wants
        rw [← writable wants]
        exact inv
      · exact reader
    refine ⟨⟨table.open vacant zero rfl rfl,?_⟩,Remains.keep k _ _ _⟩
    refine guard.unlock (guard.perm allowed (handles_put ?_ ?_).symm) ip
    · simp [File.handle,zero]
    · simp [File.handle,newFile]

end calls

end Lxos.Kernel
