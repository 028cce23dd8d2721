import Lxos.Fs.Held
import Lxos.Fs.Lookup

/-! A cache that agrees with the disk. Then the volume is what the blocks say, and
taking, loading and giving back inodes does not change it. -/
namespace Lxos.Fs
open Lxos.Bytes

/-- The volume of a disk, with no inode cached. -/
def Volume.ofDisk (sb : Superblock) (block : Nat → Block) : Volume :=
  ⟨sb,fun k => if k < sb.slots then Dinode.decode (block (sb.iblock k)) (inodeOffset k) else Dinode.zero,block⟩

/-- Loaded inodes are as on the disk. -/
def FsState.Coherent (st : FsState) (dev : Nat) : Prop :=
  ∀ s, st.Locked dev s → (st.icache s).toDinode = st.table dev (st.icache s).inum

/-- The device has the blocks `block`, and the cache agrees with them. -/
structure Mounted (dev : Nat) (sb : Superblock) (block : Nat → Block) (st : FsState) : Prop where
  sb : st.sb = sb
  disk : st.disk dev = block
  unique : st.Unique
  coherent : st.Coherent dev

/-- The kernel runs on a device with the blocks `block`, which it has not changed. -/
structure OnDisk (dev : Nat) (sb : Superblock) (block : Nat → Block) (st : FsState) : Prop where
  sb : st.sb = sb
  disk : st.disk dev = block
  unique : st.Unique
  coherent : st.Coherent dev
  enough : st.exhausted = false

section coherent
variable {dev k : Nat} {sb : Superblock} {block : Nat → Block} {st st' : FsState} {ip s : Slot}

theorem FsState.Coherent.dinode (coherent : st.Coherent dev) (k : Nat) : st.dinode dev k = st.table dev k := by
  unfold FsState.dinode
  split
  · rename_i s found
    obtain ⟨locked,number⟩ := FsState.cached_some found
    rw [coherent s locked,number]
  · rfl

theorem OnDisk.mounted (on : OnDisk dev sb block st) : Mounted dev sb block st :=
  ⟨on.sb,on.disk,on.unique,on.coherent⟩

theorem Mounted.onDisk (mounted : Mounted dev sb block st) (enough : st.exhausted = false) : OnDisk dev sb block st :=
  ⟨mounted.sb,mounted.disk,mounted.unique,mounted.coherent,enough⟩

theorem Mounted.volume (mounted : Mounted dev sb block st) : st.volume dev = Volume.ofDisk sb block := by
  obtain ⟨rfl,rfl,unique,coherent⟩ := mounted
  refine FsState.volume_ext rfl rfl (fun k h => ?_) (fun k h => if_neg (by omega))
  rw [coherent.dinode]
  exact if_pos h

theorem Mounted.idle (mounted : Mounted dev sb block st) (idle : Idle st st') : Mounted dev sb block st' := by
  obtain ⟨rfl,rfl,unique,coherent⟩ := mounted
  refine ⟨idle.sb,congrFun idle.disk dev,?_,?_⟩
  · unfold FsState.Unique
    rw [idle.icache]
    exact unique
  · unfold FsState.Coherent FsState.Locked FsState.table
    rw [idle.icache,idle.sb,idle.disk]
    exact coherent

theorem Mounted.got (mounted : Mounted dev sb block st) {d : Nat} (got : Got d k ip st st') : Mounted dev sb block st' := by
  obtain ⟨rfl,rfl,unique,coherent⟩ := mounted
  refine ⟨got.sb,congrFun got.disk dev,got.unique unique,fun s locked => ?_⟩
  have before := (got.locked dev s).mp locked
  obtain ⟨copy,number⟩ := got.copy before
  rw [copy,number,coherent s before]
  unfold FsState.table
  rw [got.disk,got.sb]

theorem Mounted.loaded (mounted : Mounted dev sb block st) (named : Named dev ip st) :
    Mounted dev sb block (ilock st ip) := by
  have loaded := ilock_loaded named
  obtain ⟨rfl,rfl,unique,coherent⟩ := mounted
  have table (j : Nat) : (ilock st ip).table dev j = st.table dev j := by
    unfold FsState.table
    rw [loaded.disk,loaded.sb]
  refine ⟨loaded.sb,congrFun loaded.disk dev,loaded.unique named,fun s locked => ?_⟩
  rw [table]
  by_cases here : s = ip
  · subst s
    rw [loaded.self]
    cases valid : (st.icache ip).valid with
    | true => exact coherent ip ⟨named.ref,named.dev,valid⟩
    | false => rfl
  · rw [loaded.other s here]
    unfold FsState.Locked at locked
    rw [loaded.other s here] at locked
    exact coherent s locked

/-- A reference is given back, and the file stays. -/
theorem iunlockput_kept (named : Named dev ip st) (linked : (st.icache ip).nlink ≠ 0) :
    iunlockput st ip = st.setInode ip { st.icache ip with ref := (st.icache ip).ref - 1 } := by
  have locked : iunlock st ip = st := if_neg (by have := named.ref; omega)
  unfold iunlockput iput
  rw [locked]
  dsimp only
  rw [if_neg (fun h => linked h.2.1)]

/-- A slot in use is counted anew. -/
theorem Mounted.counted (mounted : Mounted dev sb block st) {r : Int} (positive : 0 < r → 0 < (st.icache ip).ref) :
    Mounted dev sb block (st.setInode ip { st.icache ip with ref := r }) := by
  obtain ⟨rfl,rfl,unique,coherent⟩ := mounted
  have field (s : Slot) : 0 < ((st.setInode ip { st.icache ip with ref := r }).icache s).ref → 0 < (st.icache s).ref := by
    by_cases here : s = ip
    · rw [here,FsState.setInode_same]
      exact positive
    · rw [FsState.setInode_other _ _ _ _ here]
      exact id
  have same (s : Slot) : ((st.setInode ip { st.icache ip with ref := r }).icache s).dev = (st.icache s).dev ∧
      ((st.setInode ip { st.icache ip with ref := r }).icache s).inum = (st.icache s).inum ∧
      ((st.setInode ip { st.icache ip with ref := r }).icache s).valid = (st.icache s).valid ∧
      ((st.setInode ip { st.icache ip with ref := r }).icache s).toDinode = (st.icache s).toDinode := by
    by_cases here : s = ip
    · subst s
      rw [FsState.setInode_same]
      exact ⟨rfl,rfl,rfl,rfl⟩
    · rw [FsState.setInode_other _ _ _ _ here]
      exact ⟨rfl,rfl,rfl,rfl⟩
  refine ⟨rfl,rfl,fun s t hs ht device number => ?_,fun s locked => ?_⟩
  · rw [(same s).1,(same t).1] at device
    rw [(same s).2.1,(same t).2.1] at number
    exact unique s t (field s hs) (field t ht) device number
  · rw [(same s).2.2.2,(same s).2.1]
    refine coherent s ⟨field s locked.1,?_,?_⟩
    · rw [← (same s).1]
      exact locked.2.1
    · rw [← (same s).2.2.1]
      exact locked.2.2

theorem Mounted.drop (mounted : Mounted dev sb block st) :
    Mounted dev sb block (st.setInode ip { st.icache ip with ref := (st.icache ip).ref - 1 }) :=
  mounted.counted fun positive => by omega

theorem OnDisk.volume (on : OnDisk dev sb block st) : st.volume dev = Volume.ofDisk sb block := on.mounted.volume

theorem OnDisk.idle (on : OnDisk dev sb block st) (idle : Idle st st') : OnDisk dev sb block st' :=
  (on.mounted.idle idle).onDisk (idle.exhausted.trans on.enough)

theorem OnDisk.got (on : OnDisk dev sb block st) {d : Nat} (got : Got d k ip st st') : OnDisk dev sb block st' := by
  refine (on.mounted.got got).onDisk ?_
  unfold FsState.exhausted
  rw [got.trace]
  exact on.enough

theorem OnDisk.loaded (on : OnDisk dev sb block st) (named : Named dev ip st) : OnDisk dev sb block (ilock st ip) :=
  (on.mounted.loaded named).onDisk ((ilock_loaded named).exhausted.trans on.enough)

theorem OnDisk.drop (on : OnDisk dev sb block st) :
    OnDisk dev sb block (st.setInode ip { st.icache ip with ref := (st.icache ip).ref - 1 }) :=
  on.mounted.drop.onDisk on.enough

end coherent

end Lxos.Fs
