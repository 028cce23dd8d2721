import Lxos.Kernel.Boot
import Lxos.Kernel.Program

/-! References to inodes over whole runs. The count of a slot is the number of open
files on it, and one more for the working directory. -/
namespace Lxos.Kernel
open Lxos.Bytes Lxos.Fs Lxos.Outcome Lxos.Handles Lxos.Inventory

/-- The invariant of the references alone. -/
def Counted (hs : List Handle) (st : FsState) : Prop := Held (hs.map Prod.fst) st

section counted
variable {hs : List Handle} {st : FsState} {ip dp : Slot} {m : Mode}

/-- `create` where the name is not there, for any invariant that the new entry keeps. -/
theorem createNew_met {Inv : List Handle → FsState → Prop} (counted : Counted ((dp,.read) :: hs) st) (room : hs.length < 48)
    (name : Buffer) {type : BitVec 16} (regular : type ≠ tDir) (major minor : BitVec 16)
    (perm : ∀ {hs hs' st}, Inv hs st → hs.Perm hs' → Inv hs' st)
    (print : ∀ {hs st}, Inv hs st → Inv hs (kprint st .createDirlink))
    (unlockput : ∀ {hs ip st}, Inv ((ip,.read) :: hs) st → Inv hs (iunlockput st ip))
    (link : ∀ ip st1, ialloc st (st.icache dp).dev type = .ok (some ip,st1) →
      Counted ((ip,.write) :: (dp,.read) :: hs) (createInode st1 ip major minor) →
      Meets Tolerated (dirlink (createInode st1 ip major minor) dp name ((createInode st1 ip major minor).icache ip).inum)
        (fun r => Inv ((ip,.write) :: (dp,.read) :: hs) r.2)) :
    Meets Tolerated (createNew st dp name type major minor) (fun r => Inv ((r.1,.write) :: hs) r.2) := by
  have space : (((dp,Mode.read) :: hs).map Prod.fst).length < 50 := by
    rw [List.length_map,List.length_cons]
    omega
  have allocated : Meets Tolerated (ialloc st (st.icache dp).dev type) _ :=
    Held.iallocLoop counted space (st.icache dp).dev type st.sb.ninodes 1
  unfold createNew
  rcases allocated.cases with ⟨e,fail,tolerated⟩ | ⟨⟨_ | ip,st1⟩,ok,held⟩
  · rw [fail]
    exact tolerated
  · rw [ok]
    exact Meets.error (by decide)
  rw [ok]
  dsimp only
  rw [if_neg regular]
  have calm : Calm st1 (createInode st1 ip major minor) :=
    (ilock_calm st1 ip).trans ((setDinode_local _ _ _).calm.trans ((iupdate_io _ _).toLocal ip).calm)
  have both : Held (ip :: dp :: hs.map Prod.fst) st1 := held
  have linked := link ip st1 ok (both.calm calm)
  generalize createInode st1 ip major minor = st2 at linked ⊢
  dsimp only
  rcases linked.cases with ⟨e,fail,tolerated⟩ | ⟨⟨r,st3⟩,ok,linked⟩
  · rw [fail]
    exact tolerated
  · rw [ok]
    have swapped := perm linked (List.Perm.swap _ _ _)
    dsimp only at swapped ⊢
    split
    · exact Meets.ok (unlockput (print swapped))
    · exact Meets.ok (unlockput swapped)

theorem Counted.enter (counted : Counted ((dp,.read) :: hs) st) (room : hs.length < 48) (name : Buffer)
    {type : BitVec 16} (regular : type ≠ tDir) (major minor : BitVec 16) :
    Meets Tolerated (createNew st dp name type major minor) (fun r => Counted ((r.1,.write) :: hs) r.2) := by
  refine createNew_met counted room name regular major minor (fun counted same => Held.perm counted (same.map Prod.fst))
    (fun counted => Held.calm counted ((emit_io _ _).toLocal 0).calm) (fun counted => Held.iunlockput counted)
    fun ip st1 _ made => ?_
  have space : (((ip,Mode.write) :: (dp,Mode.read) :: hs).map Prod.fst).length < 50 := by
    rw [List.length_map,List.length_cons,List.length_cons]
    omega
  exact Held.dirlink made space dp name _

theorem counted_guard : Guard Counted where
  perm := fun counted same => Held.perm counted (same.map Prod.fst)
  print := fun m counted _ _ => Held.calm counted ((emit_io _ _).toLocal 0).calm
  stack := fun b counted => ⟨counted.counts,counted.unique⟩
  grant := fun counted _ _ => counted
  weaken := fun counted => counted
  root := fun counted room =>
    (Held.iget counted (by rw [List.length_map]; exact room) rootdev rootino).mono fun r got => got.2
  dup := fun counted member => Held.idup counted (List.mem_map.mpr ⟨_,member,rfl⟩)
  lock := fun counted _ => Held.calm counted (ilock_calm _ _)
  put := fun counted => Held.iput counted
  read := fun dst off n counted _ _ _ => Held.calm counted (readi_mapped _ _ dst off n).toLocal.calm
  write := fun src off n counted _ _ _ => Held.calm counted (writei_local _ _ src off n).calm
  lookup := by
    intro hs st dp m name counted room member dir
    refine (Held.dirlookup counted (by rw [List.length_map]; exact room) dp name).mono ?_
    rintro ⟨_ | ⟨ip,off⟩,st1⟩ found
    · obtain ⟨held,change⟩ := found
      exact ⟨held,(change.toLocal.valid dp).trans dir.1,change.type.trans dir.2⟩
    · exact found
  enter := fun name type major minor counted room _ _ regular => counted.enter room name regular major minor

end counted

section runs
variable {Inv : List Handle → FsState → Prop} {data : Nat} {k k' : State}

theorem Safe.step (guard : Guard Inv) (safe : Safe Inv k) (step : Step data k k') : Safe Inv k' := by
  cases step with
  | user _ _ _ stack => exact ⟨safe.table,guard.stack stack safe.inv⟩
  | call _ call r ok => exact (Safe.dispatch guard safe data call).elim ok

/-- Every state of a run is as safe as the first. -/
theorem Safe.run (guard : Guard Inv) (safe : Safe Inv k) (run : Run data k k') : Safe Inv k' := by
  induction run with
  | refl => exact safe
  | tail _ step ih => exact ih.step guard step

end runs

/-- The cache once the root directory is the working directory. -/
def uinitState (m : Vm) (kstack pgdir : Page) (disk : Nat → Nat → Block) (stack : Buffer) : State where
  fs := readsb { cold disk stack with
    icache := fun s => if s = 0 then ⟨Dinode.zero,rootdev,rootino,1,false⟩ else ⟨Dinode.zero,0,0,0,false⟩ } rootdev
  file := fun _ => ⟨.none,0,false,false,0,0⟩
  vm := m
  proc := ⟨pgsize,pgdir,kstack,safestrcpy zeros [105,110,105,116] 16,fun _ => none,0,0,pgsize⟩
  touched := []

/-- `namei` of the root asks for no block. -/
theorem cold_namei (disk : Nat → Nat → Block) (stack : Buffer) : namei (cold disk stack) 0 [slash] =
    .ok (some 0,(cold disk stack).setInode 0
      { (cold disk stack).icache 0 with dev := rootdev,inum := rootino,ref := 1,valid := false }) := by
  have absent : (List.finRange ninode).find? (fun s => 0 < ((cold disk stack).icache s).ref &&
      ((cold disk stack).icache s).dev == rootdev && ((cold disk stack).icache s).inum == rootino) = none :=
    List.find?_eq_none.mpr fun s _ => by simp [cold]
  have first : (List.finRange ninode).find? (fun s => ((cold disk stack).icache s).ref == 0) = some 0 := rfl
  have got : iget (cold disk stack) rootdev rootino = .ok (0,(cold disk stack).setInode 0
      { (cold disk stack).icache 0 with dev := rootdev,inum := rootino,ref := 1,valid := false }) := by
    unfold iget
    rw [absent,first]
  unfold namei namex
  rw [if_pos (show [slash].head? = some slash from rfl),got]
  rfl

theorem uinit_eq (m : Vm) (kstack pgdir : Page) (disk : Nat → Nat → Block) (stack : Buffer) :
    uinit m kstack pgdir (cold disk stack) = .ok (uinitState m kstack pgdir disk stack) := by
  unfold uinit
  rw [cold_namei]
  rfl

theorem uinitState_safe (m : Vm) (kstack pgdir : Page) (disk : Nat → Nat → Block) (stack : Buffer) :
    Safe Counted (uinitState m kstack pgdir disk stack) := by
  have single (s : Slot) : ((uinitState m kstack pgdir disk stack).fs.icache s).ref = if s = 0 then 1 else 0 := by
    change ((if s = 0 then (⟨Dinode.zero,rootdev,rootino,1,false⟩ : Inode) else ⟨Dinode.zero,0,0,0,false⟩)).ref = _
    split <;> rfl
  have closed : opened (uinitState m kstack pgdir disk stack).file = [] :=
    List.filterMap_eq_nil_iff.mpr fun f _ => rfl
  refine ⟨⟨(fun a b f named => nomatch named),(fun a f named => nomatch named),fun f _ => ⟨rfl,rfl⟩⟩,?_,?_⟩
  · intro s
    dsimp only
    rw [single,State.handles,closed]
    rcases eq_or_ne s 0 with rfl | other
    · rfl
    · have alone : List.count s [(0 : Slot)] = 0 := List.count_eq_zero_of_not_mem (by simpa using other)
      rw [if_neg other]
      exact (congrArg Nat.cast alone).symm
  · intro s t hs ht _ _
    rw [single] at hs ht
    split at hs
    · rename_i left
      split at ht
      · rename_i right
        rw [left,right]
      · cases ht
    · cases hs

/-- The handles on a slot are the open files on it and the working directory. -/
theorem handles_count (k : State) (s : Slot) : ((k.handles.map Prod.fst).count s : Int) =
    (List.finRange nfile).countP (fun f => 0 < (k.file f).ref ∧ (k.file f).type = .inode ∧ (k.file f).ip = s) +
      if k.proc.cwd = s then 1 else 0 := by
  have files : ((opened k.file).map Prod.fst).count s =
      (List.finRange nfile).countP (fun f => 0 < (k.file f).ref ∧ (k.file f).type = .inode ∧ (k.file f).ip = s) := by
    rw [List.count,List.countP_map,opened,inventory,List.countP_filterMap]
    refine List.countP_congr fun f _ => ?_
    unfold File.handle
    split
    · rename_i used
      simp [used]
    · rename_i unused
      simpa using fun ref type => absurd ⟨ref,type⟩ unused
  rw [State.handles,List.map_cons,List.count_cons,files]
  simp only [beq_iff_eq]
  split <;> simp

/-- After any run the references are those of the open files and the working
directory, so neither a slot nor a file is ever lacking. -/
theorem references {data : Nat} {m : Vm} {kstack pgdir : Page} {disk : Nat → Nat → Block} {stack : Buffer}
    {k₀ k : State} (started : uinit m kstack pgdir (cold disk stack) = .ok k₀) (run : Run data k₀ k) :
    (∀ s, (k.fs.icache s).ref =
      (List.finRange nfile).countP (fun f => 0 < (k.file f).ref ∧ (k.file f).type = .inode ∧ (k.file f).ip = s) +
        if k.proc.cwd = s then 1 else 0) ∧
    (∀ a b f, k.proc.ofile a = some f → k.proc.ofile b = some f → a = b) ∧
    (∀ f, (k.file f).ref = if ∃ a, k.proc.ofile a = some f then 1 else 0) ∧
    (∀ s t, 0 < (k.fs.icache s).ref → 0 < (k.fs.icache t).ref → (k.fs.icache s).dev = (k.fs.icache t).dev →
      (k.fs.icache s).inum = (k.fs.icache t).inum → s = t) ∧
    (∀ call, dispatch data k call ≠ .error .noSlot) ∧
    ∀ k', k'.file = k.file → filealloc k' ≠ none := by
  rw [uinit_eq] at started
  obtain rfl := Except.ok.inj started
  have safe := (uinitState_safe m kstack pgdir disk stack).run counted_guard run
  refine ⟨fun s => (safe.inv.counts s).trans (handles_count k s),safe.table.distinct,fun f => ?_,safe.inv.unique,?_,?_⟩
  · split
    · rename_i named
      obtain ⟨a,named⟩ := named
      exact (safe.table.taken a f named).1
    · rename_i unnamed
      exact (safe.table.free f fun a named => unnamed ⟨a,named⟩).1
  · intro call lacking
    have soft := Safe.dispatch counted_guard safe data call
    rw [lacking] at soft
    exact soft rfl
  · intro k' same lacking
    obtain ⟨f,zero⟩ := safe.table.spare
    unfold filealloc at lacking
    split at lacking
    · cases lacking
    · rename_i full
      have busy := List.find?_eq_none.mp full f (List.mem_finRange f)
      rw [same,zero] at busy
      exact busy rfl

/-- The first process, before its first step. -/
theorem references_start : ((uinitState ⟨fun _ _ => .zero,fun _ => zeros,[],[]⟩ 1 2 (fun _ _ => zeros) zeros).fs.icache 0).ref = 1 ∧
    ∀ call, dispatch 0 (uinitState ⟨fun _ _ => .zero,fun _ => zeros,[],[]⟩ 1 2 (fun _ _ => zeros) zeros) call ≠ .error .noSlot := by
  have law := @references 0 _ _ _ _ _ _ _ (uinit_eq ⟨fun _ _ => .zero,fun _ => zeros,[],[]⟩ 1 2 (fun _ _ => zeros) zeros)
    Relation.ReflTransGen.refl
  exact ⟨rfl,law.2.2.2.2.1⟩

end Lxos.Kernel
