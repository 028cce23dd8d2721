import Lxos.Fs.Path
import Lxos.Fs.Entries
import Lxos.Fs.Coherent

/-! What a path means. A walk goes from a directory to the inode that it has under the next
component; `namex` takes this walk, and holds one reference at a time. -/
namespace Lxos.Fs
open Lxos.Bytes Lxos.Words Lxos.Places

namespace Volume

/-- The inode that directory `k` has under a name, of which `DIRSIZ` bytes count. -/
def entry (v : Volume) (k : Nat) (name : List Byte) : Option Nat :=
  if (v.inode k).type = tDir then
    (find (table (v.byte k)) ((v.inode k).size.toNat / 16) (name.take dirsiz)).map Prod.fst
  else none

def walk (v : Volume) (k : Nat) (path : List (List Byte)) : Option Nat := path.foldlM v.entry k

/-- The inode of a path from `k` on, or the directory that the last component is looked up in. -/
def resolve (v : Volume) (k : Nat) (parent : Bool) (path : List (List Byte)) : Option Nat :=
  if parent then
    if path = [] then none else (v.walk k path.dropLast).filter fun k => (v.inode k).type = tDir
  else v.walk k path

section resolve
variable {v : Volume} {k : Nat} {parent : Bool} {name : List Byte} {path : List (List Byte)}

theorem entry_file (file : (v.inode k).type ≠ tDir) : v.entry k name = none := if_neg file

theorem walk_cons : v.walk k (name :: path) = (v.entry k name).bind fun n => v.walk n path := List.foldlM_cons

theorem resolve_nil : v.resolve k parent [] = if parent then none else some k := by
  unfold resolve
  cases parent with
  | false => rfl
  | true => rfl

theorem resolve_last (directory : (v.inode k).type = tDir) : v.resolve k true [name] = some k := by
  unfold resolve
  rw [if_pos rfl,if_neg (List.cons_ne_nil _ _)]
  change (some k).filter _ = _
  rw [Option.filter_some,if_pos (by simpa using directory)]

theorem resolve_file (file : (v.inode k).type ≠ tDir) : v.resolve k parent (name :: path) = none := by
  unfold resolve
  cases parent with
  | false =>
    rw [if_neg (by decide),walk_cons,entry_file file]
    rfl
  | true =>
    rw [if_pos rfl,if_neg (List.cons_ne_nil _ _)]
    cases path with
    | nil =>
      change (some k).filter _ = _
      rw [Option.filter_some,if_neg (by simpa using file)]
    | cons next path =>
      rw [List.dropLast_cons_of_ne_nil (List.cons_ne_nil _ _),walk_cons,entry_file file]
      rfl

/-- Before the last component, and where there is no last one, a step is taken. -/
theorem resolve_step (more : ¬(parent = true ∧ path = [])) :
    v.resolve k parent (name :: path) = (v.entry k name).bind fun n => v.resolve n parent path := by
  unfold resolve
  cases parent with
  | false => exact walk_cons
  | true =>
    have inner : path ≠ [] := fun empty => more ⟨rfl,empty⟩
    simp only [if_true,inner,if_false,reduceCtorEq]
    rw [List.dropLast_cons_of_ne_nil inner,walk_cons]
    cases v.entry k name with
    | none => rfl
    | some n => rfl

end resolve
end Volume

/-- The cache agrees with the disk. Directories consist of whole entries and have no hole, and
whatever inode they name has a link. -/
structure FsState.Navigable (st : FsState) (dev : Nat) : Prop where
  unique : st.Unique
  coherent : st.Coherent dev
  sound : (st.volume dev).Sound
  whole : ∀ k < st.sb.slots, ((st.volume dev).inode k).type = tDir →
    16 ∣ ((st.volume dev).inode k).size.toNat ∧ (st.volume dev).Filled k
  named : ∀ k < st.sb.slots, ∀ name n, (st.volume dev).entry k name = some n →
    n < st.sb.slots ∧ ((st.volume dev).inode n).nlink ≠ 0
  root : rootino < st.sb.slots ∧ ((st.volume dev).inode rootino).nlink ≠ 0

/-- Since `st0` nothing changed but the cache, where the references `hs` were taken. -/
structure Holding (dev : Nat) (st0 : FsState) (hs : List Slot) (st : FsState) : Prop where
  mounted : Mounted dev st0.sb (st0.disk dev) st
  ref : ∀ s, (st.icache s).ref = (st0.icache s).ref + hs.count s

section holding
variable {dev k n : Nat} {hs hs' : List Slot} {ip s : Slot} {st0 st st' : FsState}

theorem FsState.Navigable.mounted (nav : st0.Navigable dev) : Mounted dev st0.sb (st0.disk dev) st0 :=
  ⟨rfl,rfl,nav.unique,nav.coherent⟩

theorem Holding.volume (holding : Holding dev st0 hs st) (nav : st0.Navigable dev) : st.volume dev = st0.volume dev :=
  holding.mounted.volume.trans nav.mounted.volume.symm

theorem Holding.perm (holding : Holding dev st0 hs st) (same : hs.Perm hs') : Holding dev st0 hs' st :=
  ⟨holding.mounted,fun s => by rw [holding.ref s,same.count_eq]⟩

theorem Holding.idle (holding : Holding dev st0 hs st) (idle : Idle st st') : Holding dev st0 hs st' :=
  ⟨holding.mounted.idle idle,fun s => by rw [idle.icache,holding.ref s]⟩

theorem Holding.got (holding : Holding dev st0 hs st) (got : Got dev k ip st st') : Holding dev st0 (ip :: hs) st' := by
  refine ⟨holding.mounted.got got,fun s => ?_⟩
  by_cases here : s = ip
  · subst s
    rw [got.ref,holding.ref,List.count_cons_self]
    omega
  · rw [got.other s here,holding.ref s,List.count_cons_of_ne (Ne.symm here)]

theorem Holding.lock (holding : Holding dev st0 hs st) (named : Named dev ip st) : Holding dev st0 hs (ilock st ip) := by
  have loaded := ilock_loaded named
  refine ⟨holding.mounted.loaded named,fun s => ?_⟩
  rw [← holding.ref s]
  by_cases here : s = ip
  · rw [here,loaded.self]
  · rw [loaded.other s here]

theorem Holding.drop (holding : Holding dev st0 (ip :: hs) st) :
    Holding dev st0 hs (st.setInode ip { st.icache ip with ref := (st.icache ip).ref - 1 }) := by
  refine ⟨holding.mounted.drop,fun s => ?_⟩
  have before := holding.ref s
  by_cases here : s = ip
  · subst s
    rw [List.count_cons_self] at before
    rw [FsState.setInode_same]
    change (st.icache ip).ref - 1 = _
    omega
  · rw [List.count_cons_of_ne (Ne.symm here)] at before
    rw [FsState.setInode_other _ _ _ _ here,before]

theorem Holding.spare (holding : Holding dev st0 [ip] st)
    (spare : ∃ s t, s ≠ t ∧ (st0.icache s).ref = 0 ∧ (st0.icache t).ref = 0) : ∃ s, (st.icache s).ref = 0 := by
  obtain ⟨s,t,apart,zero,zero'⟩ := spare
  have free {u : Slot} (other : u ≠ ip) (zero : (st0.icache u).ref = 0) : (st.icache u).ref = 0 := by
    rw [holding.ref u,zero,List.count_singleton,if_neg (by simpa using Ne.symm other)]
    rfl
  by_cases here : s = ip
  · exact ⟨t,free (fun there => apart (here.trans there.symm)) zero'⟩
  · exact ⟨s,free here zero⟩

/-- The walk has come to inode `k`, in slot `ip`. The reference can be given back: the inode
has a link, or it is held elsewhere. -/
structure Standing (dev : Nat) (st0 : FsState) (k : Nat) (ip : Slot) (hs : List Slot) (st : FsState) : Prop where
  holding : Holding dev st0 (ip :: hs) st
  names : st.Names dev k ip
  place : k < st0.sb.slots
  stays : ((st0.volume dev).inode k).nlink ≠ 0 ∨ 1 < (st.icache ip).ref

theorem Standing.named (standing : Standing dev st0 k ip hs st) : Named dev ip st := by
  refine ⟨standing.holding.mounted.unique,standing.names.1,standing.names.2.1,?_⟩
  rw [standing.names.2.2,standing.holding.mounted.sb]
  exact standing.place

theorem Standing.put (standing : Standing dev st0 k ip hs st) (nav : st0.Navigable dev) :
    iput st ip = st.setInode ip { st.icache ip with ref := (st.icache ip).ref - 1 } ∧ Holding dev st0 hs (iput st ip) := by
  have kept : ¬((st.icache ip).valid = true ∧ (st.icache ip).nlink = 0 ∧ (st.icache ip).ref = 1) := by
    rintro ⟨valid,unlinked,one⟩
    rcases standing.stays with linked | more
    · have named := standing.named
      have copy := FsState.volume_locked named.unique ⟨named.ref,named.dev,valid⟩ named.place
      rw [standing.holding.volume nav,standing.names.2.2] at copy
      rw [copy] at linked
      exact linked unlinked
    · omega
  have put : iput st ip = st.setInode ip { st.icache ip with ref := (st.icache ip).ref - 1 } := by
    unfold iput
    dsimp only
    rw [if_neg kept]
  rw [put]
  exact ⟨rfl,standing.holding.drop⟩

theorem Standing.idle (standing : Standing dev st0 k ip hs st) (idle : Idle st st') : Standing dev st0 k ip hs st' := by
  refine ⟨standing.holding.idle idle,?_,standing.place,?_⟩
  · unfold FsState.Names
    rw [idle.icache]
    exact standing.names
  · rw [idle.icache]
    exact standing.stays

theorem Standing.unlock (standing : Standing dev st0 k ip hs st) : iunlock st ip = st := by
  have positive := standing.names.1
  exact if_neg (by omega)

theorem Standing.lock (standing : Standing dev st0 k ip hs st) : Standing dev st0 k ip hs (ilock st ip) := by
  have loaded := ilock_loaded standing.named
  have self : ((ilock st ip).icache ip).ref = (st.icache ip).ref ∧ ((ilock st ip).icache ip).dev = (st.icache ip).dev ∧
      ((ilock st ip).icache ip).inum = (st.icache ip).inum := by
    rw [loaded.self]
    exact ⟨rfl,rfl,rfl⟩
  refine ⟨standing.holding.lock standing.named,?_,standing.place,?_⟩
  · unfold FsState.Names
    rw [self.1,self.2.1,self.2.2]
    exact standing.names
  · rw [self.1]
    exact standing.stays

/-- The locked inode is the one of the volume. -/
theorem Standing.ready (standing : Standing dev st0 k ip hs st) (nav : st0.Navigable dev) : Ready dev ip (ilock st ip) ∧
    ((ilock st ip).icache ip).inum = k ∧ ((ilock st ip).icache ip).toDinode = (st0.volume dev).inode k := by
  have locked := standing.lock
  have ready := ilock_ready standing.named (by rw [standing.holding.volume nav]; exact nav.sound)
  have copy := FsState.volume_locked ready.unique ready.locked ready.place
  rw [locked.holding.volume nav,locked.names.2.2] at copy
  exact ⟨ready,locked.names.2.2,copy.symm⟩

/-- A locked directory can be looked through. -/
theorem Standing.scan (standing : Standing dev st0 k ip hs st) (nav : st0.Navigable dev)
    (directory : ((st0.volume dev).inode k).type = tDir) : Scan dev ip (ilock st ip) ∧
      ((ilock st ip).volume dev).Filled ((ilock st ip).icache ip).inum ∧ ∀ {name : Buffer} {elem : List Byte},
        cname name = elem.take dirsiz →
          (st0.volume dev).entry k elem = (lookup (ilock st ip) dev ip (cname name)).map Prod.fst := by
  obtain ⟨ready,number,copy⟩ := standing.ready nav
  obtain ⟨whole,filled⟩ := nav.whole k standing.place directory
  have small := filled.size
  have volume := standing.lock.holding.volume nav
  refine ⟨⟨ready,?_,?_,?_⟩,?_,fun title => ?_⟩
  · rw [copy,directory]
  · rw [copy]
    exact whole
  · rw [copy]
    exact small
  · rw [volume,number]
    exact filled
  · unfold Volume.entry lookup
    rw [if_pos directory,volume,number,title,copy]

/-- The next inode is referenced, and the last one is given back. -/
theorem Standing.step (standing : Standing dev st0 k ip [] st) (nav : st0.Navigable dev) {next : Slot}
    (got : Got dev n next st st') (place : n < st0.sb.slots) (linked : ((st0.volume dev).inode n).nlink ≠ 0) :
    Standing dev st0 n next [] (iunlockput st' ip) := by
  have holding := standing.holding.got got
  have more : 0 < (st'.icache ip).ref ∧ (st'.icache ip).dev = dev ∧ (st'.icache ip).inum = k ∧
      (((st0.volume dev).inode k).nlink ≠ 0 ∨ 1 < (st'.icache ip).ref) ∧
      (ip = next → 1 < (st'.icache ip).ref) := by
    have positive := standing.names.1
    by_cases here : ip = next
    · subst next
      have device := got.device
      have inum : (st'.icache ip).inum = k := by
        rcases got.origin with ⟨old,_⟩ | ⟨_,zero,_⟩
        · rw [got.inum,← old.2.2]
          exact standing.names.2.2
        · omega
      have ref := got.ref
      exact ⟨by omega,device,inum,Or.inr (by omega),fun _ => by omega⟩
    · rw [got.other ip here]
      exact ⟨positive,standing.names.2.1,standing.names.2.2,standing.stays,fun same => absurd same here⟩
  have both : Standing dev st0 k ip [next] st' :=
    ⟨holding.perm (List.Perm.swap _ _ _),⟨more.1,more.2.1,more.2.2.1⟩,standing.place,more.2.2.2.1⟩
  obtain ⟨put,after⟩ := both.put nav
  unfold iunlockput
  rw [both.unlock]
  refine ⟨after,?_,place,Or.inl linked⟩
  have there := got.names
  rw [put]
  unfold FsState.Names
  by_cases here : next = ip
  · subst next
    rw [FsState.setInode_same]
    have := more.2.2.2.2 rfl
    exact ⟨by change 0 < (st'.icache ip).ref - 1; omega,there.2⟩
  · rw [FsState.setInode_other _ _ _ _ here]
    exact there

end holding

section namex
variable {dev k : Nat} {parent : Bool} {path : List Byte} {name : Buffer} {ip cwd : Slot} {st0 st : FsState}

end namex

/-- A disk with an empty root directory, which is the current one. -/
def rooted : FsState := iupdate bare 0

end Lxos.Fs
