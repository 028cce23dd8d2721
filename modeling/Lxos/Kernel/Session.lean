import Lxos.Fs.Tidy
import Lxos.Kernel.Offsets
import Lxos.Utils.Fresh
import Lxos.Utils.Holes

/-! Sessions on a fresh image: what holds in every state that system calls reach, as long
as there are blocks and inodes. -/
namespace Lxos.Kernel
open Lxos.Bytes Lxos.Fs Lxos.Utils Lxos.Outcome

section image
variable {tight : Prop} {files : List Input} {image t : Mkfs} {disk : Nat → Nat → Block}

/-- An image without a hole in its root directory is tidy. -/
theorem image_tidy (lists : Lists files t) (finished : Finished files.length t image) (few : files.length ≤ 206)
    (ragged : (files.length + 2) % 32 ≠ 0) (blank : Blank t) : image.volume.Tidy tight := by
  have lawful := image_lawful lists finished few blank
  refine ⟨finished.sound,fun k _ _ => ?_,fun k directory => ?_,lawful.within _ lawful.root,fun _ => ?_⟩
  · rcases image_cases lists finished few blank k with ⟨rfl,_⟩ | ⟨⟨i,rfl,inside⟩,_⟩ | zero
    · exact filled_image lists finished few ragged (le_refl _) (by change 1 < _; omega)
    · exact filled_image lists finished few ragged (by change 1 ≤ _; omega) (by omega)
    · intro bn below
      rw [zero] at below
      exact absurd below (Nat.not_lt_zero _)
  · have listing := lawful.listing k directory
    refine ⟨listing.whole,fun j name n inside here => ?_⟩
    exact lawful.within n (listing.named j name n inside here)
  · refine ⟨fun k zero => ?_,fun b bound marked => ?_⟩
    · rw [lawful.unused k zero]
      rfl
    · have low := (finished.marked (by change b < 1000 at bound; omega)).mp marked
      have reserve : image.volume.sb.nmeta = 59 := (by decide : sb.nmeta = 59)
      rw [reserve]
      rcases Nat.lt_or_ge b 59 with reserved | data
      · exact Or.inl reserved
      · exact Or.inr (finished.exact b data low)

/-- The one slot in use is not loaded, and has the root. -/
theorem uinitState_slot {m : Vm} {kstack pgdir : Page} {stack : Buffer} {s : Slot}
    (used : 0 < ((uinitState m kstack pgdir disk stack).fs.icache s).ref) :
    (uinitState m kstack pgdir disk stack).fs.icache s = ⟨Dinode.zero,rootdev,rootino,1,false⟩ := by
  have slot : (uinitState m kstack pgdir disk stack).fs.icache s =
      if s = 0 then ⟨Dinode.zero,rootdev,rootino,1,false⟩ else ⟨Dinode.zero,0,0,0,false⟩ := rfl
  rw [slot] at used ⊢
  split at used
  · rename_i here
    rw [if_pos here]
  · exact absurd used (lt_irrefl 0)

theorem uinitState_tidy (lists : Lists files t) (finished : Finished files.length t image) (few : files.length ≤ 206)
    (ragged : (files.length + 2) % 32 ≠ 0) (blank : Blank t) (device : disk rootdev = image.sectors) (m : Vm)
    (kstack pgdir : Page) (stack : Buffer) : Tidy tight (uinitState m kstack pgdir disk stack).fs ∧
      (uinitState m kstack pgdir disk stack).fs.InUse := by
  have on := (mounted_uinit device m kstack pgdir stack).on
  have volume := finished.volume on
  have tidy := @image_tidy tight _ _ _ lists finished few ragged blank
  refine ⟨⟨by rw [volume]; exact tidy,on.unique,on.coherent,rfl,fun s used => ?_⟩,fun s used => ?_⟩
  all_goals rw [uinitState_slot used]
  · rw [on.sb,finished.super,superBlock_decode]
    exact ⟨rfl,tidy.root⟩
  · rw [volume]
    exact (image_lawful lists finished few blank).root

end image

section session
variable {files : List Input} {image : Mkfs} {disk : Nat → Nat → Block} {data : Nat} {m : Vm} {kstack pgdir : Page}
  {stack : Buffer} {k₀ k₁ k₂ : State}

/-- The root is marked: it is the working directory. -/
theorem root_marked (n : Nat) (here : n = rootino) : ∃ s, (s,n) ∈ [((0 : Slot),rootino)] :=
  ⟨0,by rw [here]; exact List.mem_singleton_self _⟩

theorem uinitState_lawful (made : mkfs files = some image) (few : files.length ≤ 198) (device : disk rootdev = image.sectors)
    (m : Vm) (kstack pgdir : Page) (stack : Buffer) :
    Lawful (Titles files) (· = rootino) (uinitState m kstack pgdir disk stack).fs := by
  obtain ⟨t,lists,finished,blank⟩ := mkfs_blank (by omega) made
  have on := (mounted_uinit device m kstack pgdir stack).on
  have volume := finished.volume on
  have lawful := image_lawful lists finished (by omega) blank
  have unlocked (s : Slot) : ¬(uinitState m kstack pgdir disk stack).fs.Locked rootdev s := fun locked => by
    have valid := locked.2.2
    rw [uinitState_slot locked.1] at valid
    cases valid
  refine ⟨by rw [volume]; exact lawful,on.unique,fun s used => ?_,fun s locked => absurd locked (unlocked s),fun n here => ?_⟩
  · rw [volume,uinitState_slot used]
    exact ⟨rfl,lawful.root⟩
  · have root := lawful.root
    subst here
    rw [← volume] at root lawful
    have inside := lawful.within _ root
    rw [FsState.volume_inode inside,FsState.dinode_unlocked fun s locked => absurd locked (unlocked s)] at root
    exact root

theorem uinitState_settled (made : mkfs files = some image) (few : files.length ≤ 198)
    (device : disk rootdev = image.sectors) (m : Vm) (kstack pgdir : Page) (stack : Buffer) :
    Settled (Titles files) (· = rootino) [((0 : Slot),rootino)] (uinitState m kstack pgdir disk stack).fs
      (uinitState m kstack pgdir disk stack) := by
  have safe := uinitState_safe m kstack pgdir disk stack
  refine ⟨⟨safe.table,safe.inv,fun n mark => ?_,fun _ => ?_⟩,rfl,fun a f absurd => nomatch absurd⟩
  · obtain rfl := List.mem_singleton.mp mark
    exact List.mem_cons_self
  · refine ⟨uinitState_lawful made few device m kstack pgdir stack,Volume.Evolves.refl _,Uncut.refl _,fun n mark => ?_,
      fun s member => ?_⟩
    · obtain rfl := List.mem_singleton.mp mark
      rfl
    · have closed : opened (uinitState m kstack pgdir disk stack).file = [] :=
        List.filterMap_eq_nil_iff.mpr fun f _ => rfl
      rw [State.handles,closed] at member
      cases congrArg Prod.snd (List.mem_singleton.mp member)

theorem Settled.restart {strict : Prop} {loose : Nat → Prop} {marks : List (Slot × Nat)} {origin : FsState} {k : State}
    (settled : Settled strict loose marks origin k) : Settled strict loose marks k.fs k :=
  ⟨settled.safe.restart,settled.enough,settled.offsets⟩

/-- No offset passes the end of its file, and none can be left behind it: files do not
shrink and no inode is freed. So a read gets what is left. -/
theorem offsets_within (made : mkfs files = some image) (few : files.length ≤ 198) (device : disk rootdev = image.sectors)
    (started : uinit m kstack pgdir (cold disk stack) = .ok k₀) (before : Run data k₀ k₁) (after : Run data k₁ k₂)
    (enough : k₂.fs.exhausted = false) :
    (∀ n, ((k₁.fs.volume rootdev).inode n).size.toNat ≤ ((k₂.fs.volume rootdev).inode n).size.toNat) ∧
    (∀ dev n, .itrunc dev n ∉ k₂.fs.trace) ∧
    (∀ fd f, k₂.proc.ofile fd = some f →
      (k₂.inode (k₂.file f).ip).type = tFile ∨ (k₂.inode (k₂.file f).ip).type = tDir →
      (k₂.file f).off ≤ (k₂.inode (k₂.file f).ip).size.toNat ∧
        (k₂.inode (k₂.file f).ip).size.toNat ≤ maxfile * bsize) ∧
    ∀ f p n k, argbuf k₂ = .ok (some (f,p,n),k) → 0 ≤ int32 n → (k₂.file f).readable = true →
      (k₂.inode (k₂.file f).ip).type = tFile ∨ (k₂.inode (k₂.file f).ip).type = tDir →
      ∃ r k', sysRead k₂ = .ok (r,k') ∧ (k'.fs.exhausted = false →
        r = ((min n ((k₂.inode (k₂.file f).ip).size.toNat - (k₂.file f).off) : Nat) : Int)) := by
  rw [uinit_eq] at started
  obtain rfl := Except.ok.inj started
  have start := uinitState_settled made few device m kstack pgdir stack
  have counted := start.safe.run (tended_guard _ root_marked) before
  have enough₁ := exhausted_of_suffix (Safe.trace ⟨counted.table,counted.inv.counted⟩ after) enough
  have settled₁ := (start.run root_marked before enough₁).restart
  have settled := start.run root_marked (before.trans after) enough
  have evolves := (settled₁.run root_marked after enough).orderly.evolves
  have file {k : State} {f : FileId} (kind : (k.inode (k.file f).ip).type = tFile ∨ (k.inode (k.file f).ip).type = tDir) :
      (k.inode (k.file f).ip).type ≠ tDev := by
    rcases kind with file | dir
    · rw [file]
      decide
    · rw [dir]
      decide
  refine ⟨fun n => ?_,fun dev n inside => ?_,fun fd f named kind => ?_,fun f p n k args positive readable kind => ?_⟩
  · rcases eq_or_ne ((k₁.fs.volume rootdev).inode n).type 0 with zero | some
    · rw [settled₁.orderly.lawful.volume.unused n zero]
      exact Nat.zero_le _
    · exact evolves.size n some
  · obtain ⟨es,since,plain⟩ := settled.orderly.uncut
    rw [since] at inside
    rcases List.mem_append.mp inside with late | early
    · exact plain _ late trivial
    · change Event.itrunc dev n ∈ [_,_] at early
      simp at early
  · exact ⟨settled.offsets fd f named (file kind),settled.orderly.lawful.volume.small _⟩
  · obtain ⟨accessed,buffer⟩ := (argbuf_accessed k₂).elim args
    obtain ⟨width,fd,named⟩ := buffer f p n rfl
    rw [← accessed.proc] at named
    refine ⟨_,_,by unfold sysRead; rw [args],fun enough' => ?_⟩
    have same : k.file f = k₂.file f := by rw [accessed.file]
    have inode (ip : Slot) : k.inode ip = k₂.inode ip := by
      unfold State.inode
      rw [accessed.fs]
    rw [← same] at readable kind ⊢
    rw [← inode] at kind ⊢
    have here : Settled _ _ _ _ k := settled.accessed accessed
    have within := here.offsets fd f named (file kind)
    have small : (k.inode (k.file f).ip).size.toNat ≤ 71680 := here.orderly.lawful.volume.small _
    have count := (here.fileread root_marked named readable p width enough').2 (file kind)
    rw [count,if_pos]
    unfold int32 at positive
    split at positive
    · omega
    · omega

/-- On the image of one empty file, before the first call. -/
theorem offsets_within_start : ∃ image, mkfs [emptyFile] = some image ∧
    ∀ dev n, .itrunc dev n ∉ (uinitState ⟨fun _ _ => .zero,fun _ => zeros,[],[]⟩ 1 2 (fun _ => image.sectors) zeros).fs.trace := by
  obtain ⟨image,made⟩ := @mkfs_room [emptyFile] (by decide) (by decide)
  have law := @offsets_within [emptyFile] image (fun _ => image.sectors) 0 ⟨fun _ _ => .zero,fun _ => zeros,[],[]⟩ 1 2 zeros
    _ _ _ made (by decide) rfl (uinit_eq _ _ _ _ _) Relation.ReflTransGen.refl Relation.ReflTransGen.refl rfl
  exact ⟨image,made,law.2.1⟩

/-- Directories are written by `dirlink` alone: no descriptor can write one, and their
entries have different names and lead to inodes in use. -/
theorem directories_formed (titles : Titles files) (made : mkfs files = some image) (few : files.length ≤ 198)
    (device : disk rootdev = image.sectors) (started : uinit m kstack pgdir (cold disk stack) = .ok k₀)
    (run : Run data k₀ k₁) (enough : k₁.fs.exhausted = false) :
    (∀ f, 0 < (k₁.file f).ref → (k₁.file f).type = .inode → (k₁.file f).writable = true →
      (k₁.inode (k₁.file f).ip).type ≠ tDir) ∧
    ∀ d, ((k₁.fs.volume rootdev).inode d).type = tDir → Volume.Listing True (k₁.fs.volume rootdev) d := by
  rw [uinit_eq] at started
  obtain rfl := Except.ok.inj started
  have orderly := ((uinitState_settled made few device m kstack pgdir stack).run root_marked run enough).orderly
  refine ⟨fun f used type writable => ?_,fun d directory => ?_⟩
  · refine orderly.files _ (List.mem_cons_of_mem _ (List.mem_filterMap.mpr ⟨f,List.mem_finRange f,?_⟩))
    simp [File.handle,used,type,writable]
  · obtain ⟨whole,named,distinct,dots⟩ := orderly.lawful.volume.listing d directory
    exact ⟨whole,named,fun _ => distinct titles,dots⟩

theorem directories_formed_start : ∃ image, mkfs [shortFile] = some image ∧
    ∀ d, (((uinitState ⟨fun _ _ => .zero,fun _ => zeros,[],[]⟩ 1 2 (fun _ => image.sectors) zeros).fs.volume rootdev).inode d).type = tDir →
      16 ∣ (((uinitState ⟨fun _ _ => .zero,fun _ => zeros,[],[]⟩ 1 2 (fun _ => image.sectors) zeros).fs.volume rootdev).inode d).size.toNat := by
  obtain ⟨image,made⟩ := @mkfs_room [shortFile] (by decide) (by decide)
  have law := @directories_formed [shortFile] image (fun _ => image.sectors) 0 ⟨fun _ _ => .zero,fun _ => zeros,[],[]⟩ 1 2 zeros
    _ _ ⟨by decide,by decide⟩ made (by decide) rfl (uinit_eq _ _ _ _ _) Relation.ReflTransGen.refl rfl
  exact ⟨image,made,fun d directory => (law.2 d directory).whole⟩

end session

end Lxos.Kernel
