import Lxos.Fs.Directory
import Lxos.Library.Nesting

/-! The log of requests to the buffer cache. Every function of `fs.c` pins buffers in a
nested way, and the disk is what the writes in the log make of it. -/
namespace Lxos.Fs
open Lxos.Bytes Lxos.Nesting

/-- What happened between two states, latest first. -/
def Since (st st' : FsState) (es : List Event) : Prop := st'.trace = es ++ st.trace

/-- What a request does to the buffer of a block. -/
def Event.act : Event → Act (Nat × Nat)
  | .bread dev b => .opens (dev,b)
  | .brelse dev b => .closes (dev,b)
  | .bwrite dev b _ => .uses (dev,b)
  | .print _ => .other
  | .itrunc _ _ => .other

def Event.store (disk : Nat → Nat → Block) : Event → Nat → Nat → Block
  | .bwrite dev b data => fun d c => if d = dev ∧ c = b then data else disk d c
  | _ => disk

/-- A disk after the writes in a log. -/
def replay (disk : Nat → Nat → Block) (es : List Event) : Nat → Nat → Block := es.foldr (fun e disk => e.store disk) disk

/-- Between two states at most `n` buffers were pinned at a time, besides those in `held`. -/
def Nests (n : Nat) (held : List (Nat × Nat)) (st st' : FsState) : Prop :=
  ∃ es, Since st st' es ∧ Nested Event.act n held es ∧ st'.disk = replay st.disk es

section since
variable {st st' st'' : FsState} {es fs : List Event} {dev b : Nat} {n m : Nat} {held held' : List (Nat × Nat)}

theorem Since.trans (first : Since st st' es) (second : Since st' st'' fs) : Since st st'' (fs ++ es) := by
  unfold Since at *
  rw [second,first,List.append_assoc]

theorem rewrite_since (st : FsState) (dev b : Nat) (data : Block) : Since st
    (brelse (bwrite (bread st dev b) dev b data) dev b) [.brelse dev b,.bwrite dev b data,.bread dev b] := rfl

theorem replay_append (disk : Nat → Nat → Block) (es fs : List Event) :
    replay disk (fs ++ es) = replay (replay disk es) fs := List.foldr_append

theorem Nests.quiet (trace : st'.trace = st.trace) (disk : st'.disk = st.disk) : Nests n held st st' :=
  ⟨[],trace,.nil n held,disk⟩

theorem Nests.refl (st : FsState) : Nests n held st st := .quiet rfl rfl

theorem Nests.trans (first : Nests n held st st') (second : Nests n held st' st'') : Nests n held st st'' := by
  obtain ⟨es,since,nested,disk⟩ := first
  obtain ⟨fs,since',nested',disk'⟩ := second
  refine ⟨fs ++ es,since.trans since',.append nested nested',?_⟩
  rw [disk',disk,replay_append]

theorem Nests.mono (nests : Nests n held st st') (more : n ≤ m) : Nests m held st st' := by
  obtain ⟨es,since,nested,disk⟩ := nests
  exact ⟨es,since,nested.mono more,disk⟩

theorem Nests.weaken (nests : Nests n [] st st') : Nests n held st st' := by
  obtain ⟨es,since,nested,disk⟩ := nests
  exact ⟨es,since,nested.weaken (List.nil_subset held),disk⟩

theorem Nests.print (st : FsState) (message : Message) : Nests n held st (kprint st message) :=
  ⟨[.print message],rfl,.other rfl,rfl⟩

theorem Nests.printIf (st : FsState) (p : Prop) [Decidable p] (message : Message) :
    Nests n held st (if p then kprint st message else st) := by
  split
  · exact Nests.print st message
  · exact Nests.refl st

theorem Nests.write (st : FsState) (inside : (dev,b) ∈ held) (data : Block) : Nests n held st (bwrite st dev b data) :=
  ⟨[.bwrite dev b data],rfl,.uses rfl inside,rfl⟩

theorem Nests.pin (body : Nests n ((dev,b) :: held) (bread st dev b) st') : Nests (n+1) held st (brelse st' dev b) := by
  obtain ⟨es,since,nested,disk⟩ := body
  refine ⟨.brelse dev b :: (es ++ [.bread dev b]),?_,.pair rfl rfl nested,?_⟩
  · rw [Since,brelse_trace,since]
    simp
  · rw [brelse_disk,disk]
    change replay st.disk es = replay st.disk (es ++ [.bread dev b])
    rw [replay_append]
    rfl

end since

section operations
variable {st : FsState} {dev : Nat} {ip : Slot} {n : Nat} {held : List (Nat × Nat)}

theorem setInode_nests (st : FsState) (ip : Slot) (v : Inode) : Nests n held st (st.setInode ip v) := Nests.quiet rfl rfl

theorem setDinode_nests (st : FsState) (ip : Slot) (d : Dinode) : Nests n held st (st.setDinode ip d) := Nests.quiet rfl rfl

theorem rewrite_nests (st : FsState) (dev b : Nat) (data : Block) :
    Nests 1 [] st (brelse (bwrite (bread st dev b) dev b data) dev b) :=
  Nests.pin (Nests.write _ List.mem_cons_self data)

theorem readsb_nests (st : FsState) (dev : Nat) : Nests 1 [] st (readsb st dev) :=
  Nests.pin (Nests.quiet rfl rfl)

theorem bzero_nests (st : FsState) (dev b : Nat) : Nests 1 [] st (bzero st dev b) := rewrite_nests st dev b zeros

theorem balloc_nests (st : FsState) (dev : Nat) : Nests 1 [] st (balloc st dev).2 := by
  have loop (fuel : Nat) (st : FsState) (b : Nat) : Nests 1 [] st (ballocBlocks dev fuel st b).2 := by
    induction fuel generalizing st b with
    | zero => exact Nests.print st _
    | succ fuel ih =>
      unfold ballocBlocks
      split
      · dsimp only
        split
        · exact (rewrite_nests st dev _ _).trans (bzero_nests _ dev _)
        · exact (Nests.pin (Nests.refl _)).trans (ih _ _)
      · exact Nests.print st _
  exact loop _ st 0

theorem bfree_nests (st : FsState) (dev b : Nat) : Nests 1 [] st (bfree st dev b) := by
  refine (readsb_nests st dev).trans ?_
  unfold bfree
  dsimp only
  refine Nests.pin (Nests.trans ?_ (Nests.write _ List.mem_cons_self _))
  split
  · exact Nests.print _ _
  · exact Nests.refl _

theorem iupdate_nests (st : FsState) (ip : Slot) : Nests 1 [] st (iupdate st ip) := rewrite_nests st _ _ _

theorem ilock_nests (st : FsState) (ip : Slot) : Nests 1 [] st (ilock st ip) := by
  unfold ilock
  dsimp only
  refine (Nests.printIf st ((st.icache ip).ref < 1) .ilock).trans ?_
  generalize (if (st.icache ip).ref < 1 then kprint st .ilock else st) = st1
  split
  · exact Nests.refl st1
  · have loaded : Nests 1 [] st1 (brelse (FsState.setDinode (bread st1 (st1.icache ip).dev
        (st1.sb.iblock (st1.icache ip).inum)) ip (Dinode.decode ((bread st1 (st1.icache ip).dev
        (st1.sb.iblock (st1.icache ip).inum)).disk (st1.icache ip).dev (st1.sb.iblock (st1.icache ip).inum))
        (inodeOffset (st1.icache ip).inum))) (st1.icache ip).dev (st1.sb.iblock (st1.icache ip).inum)) :=
      Nests.pin (Nests.quiet rfl rfl)
    exact (loaded.trans (Nests.quiet rfl rfl)).trans (Nests.printIf _ _ _)

theorem iunlock_nests (st : FsState) (ip : Slot) : Nests 0 [] st (iunlock st ip) := Nests.printIf st _ _

theorem iget_nests {inum : Nat} {r : Slot × FsState} (ok : iget st dev inum = .ok r) : Nests 0 [] st r.2 := by
  unfold iget at ok
  split at ok
  · rw [← Except.ok.inj ok]
    exact Nests.quiet rfl rfl
  · split at ok
    · rw [← Except.ok.inj ok]
      exact Nests.quiet rfl rfl
    · cases ok

theorem bmap_nests (st : FsState) (ip : Slot) (bn : Nat) : Nests 2 [] st (bmap st ip bn).2 := by
  have alloc (st : FsState) (dev i : Nat) : Nests 1 [] st ((balloc st dev).2.setAddr ip i (balloc st dev).1) :=
    (balloc_nests st dev).trans (setDinode_nests _ ip _)
  unfold bmap
  dsimp only
  split
  · split
    · exact (alloc st _ _).mono (by decide)
    · exact Nests.refl st
  · split
    · generalize (st.icache ip).dev = dev
      have table : Nests 1 [] st (if (st.icache ip).addr ndirect = 0 then
            ((balloc st dev).1,(balloc st dev).2.setAddr ip ndirect (balloc st dev).1)
          else ((st.icache ip).addr ndirect,st)).2 := by
        split
        · exact alloc st dev ndirect
        · exact Nests.refl st
      generalize (if (st.icache ip).addr ndirect = 0 then
          ((balloc st dev).1,(balloc st dev).2.setAddr ip ndirect (balloc st dev).1)
        else ((st.icache ip).addr ndirect,st)) = r at table ⊢
      obtain ⟨addr,st1⟩ := r
      refine (table.mono (by decide)).trans ?_
      dsimp only
      split
      · exact Nests.pin ((balloc_nests (bread st1 dev addr) dev).weaken.trans (Nests.write _ List.mem_cons_self _))
      · exact Nests.pin (Nests.refl _)
    · exact Nests.print st _

theorem itruncDirect_nests (ip : Slot) (n : Nat) (st : FsState) : Nests 1 [] st (itruncDirect ip n st) := by
  induction n with
  | zero => exact Nests.refl st
  | succ i ih =>
    unfold itruncDirect
    dsimp only
    split
    · exact ih
    · exact (ih.trans (bfree_nests _ _ _)).trans (setDinode_nests _ ip _)

theorem itruncEntries_nests (dev blockno n : Nat) (st : FsState) : Nests 1 [] st (itruncEntries dev blockno n st) := by
  induction n with
  | zero => exact Nests.refl st
  | succ j ih =>
    unfold itruncEntries
    dsimp only
    split
    · exact ih
    · exact ih.trans (bfree_nests _ _ _)

theorem itrunc_nests (st : FsState) (ip : Slot) : Nests 2 [] st (itrunc st ip) := by
  unfold itrunc
  dsimp only
  have told : Nests 2 [] st (st.emit (.itrunc (st.icache ip).dev (st.icache ip).inum)) := ⟨[_],rfl,.other rfl,rfl⟩
  generalize st.emit (.itrunc (st.icache ip).dev (st.icache ip).inum) = st0 at told
  refine told.trans (((itruncDirect_nests ip ndirect st0).mono (by decide)).trans ?_)
  generalize itruncDirect ip ndirect st0 = st1
  have last (st : FsState) : Nests 2 [] st (iupdate (st.setDinode ip { (st.icache ip).toDinode with size := 0 }) ip) :=
    (setDinode_nests st ip _).trans ((iupdate_nests _ ip).mono (by decide))
  split
  · exact last st1
  · refine Nests.trans ?_ (last _)
    refine Nests.trans ?_ (setDinode_nests _ ip _)
    have entries := itruncEntries_nests (st1.icache ip).dev ((st1.icache ip).addr ndirect) nindirect
      (bread st1 (st1.icache ip).dev ((st1.icache ip).addr ndirect))
    exact (Nests.pin entries.weaken).trans ((bfree_nests _ _ _).mono (by decide))

theorem iput_nests (st : FsState) (ip : Slot) : Nests 2 [] st (iput st ip) := by
  unfold iput
  dsimp only
  refine Nests.trans ?_ (setInode_nests _ ip _)
  split
  · refine Nests.trans ?_ (setInode_nests _ ip _)
    refine Nests.trans ?_ ((iupdate_nests _ ip).mono (by decide))
    exact (itrunc_nests st ip).trans (setDinode_nests _ ip _)
  · exact Nests.refl st

theorem iunlockput_nests (st : FsState) (ip : Slot) : Nests 2 [] st (iunlockput st ip) :=
  ((iunlock_nests st ip).mono (by decide)).trans (iput_nests _ ip)

theorem readi_nests (st : FsState) (ip : Slot) (dst : Buffer) (off n : Nat) : Nests 2 [] st (readi st ip dst off n).2.2 := by
  have loop (n fuel : Nat) (st : FsState) (dst : Buffer) (tot off : Nat) :
      Nests 2 [] st (readiLoop ip n fuel st dst tot off).2 := by
    induction fuel generalizing st dst tot off with
    | zero => exact Nests.refl st
    | succ fuel ih =>
      unfold readiLoop
      split
      · refine (bmap_nests st ip (off / bsize)).trans ?_
        exact ((Nests.pin (n := 0) (Nests.refl _)).mono (by decide)).trans (ih _ _ _ _)
      · exact Nests.refl st
  unfold readi
  dsimp only
  split
  · split
    · exact Nests.refl st
    · exact Nests.refl st
  · split
    · exact Nests.refl st
    · exact loop _ _ _ _ _ _

theorem writei_nests (st : FsState) (ip : Slot) (src : Buffer) (off n : Nat) : Nests 2 [] st (writei st ip src off n).2 := by
  have loop (n fuel : Nat) (st : FsState) (tot off : Nat) : Nests 2 [] st (writeiLoop ip src n fuel st tot off).2 := by
    induction fuel generalizing st tot off with
    | zero => exact Nests.refl st
    | succ fuel ih =>
      unfold writeiLoop
      split
      · refine (bmap_nests st ip (off / bsize)).trans ?_
        exact ((rewrite_nests _ _ _ _).mono (by decide)).trans (ih _ _ _)
      · exact Nests.refl st
  unfold writei
  dsimp only
  split
  · split
    · exact Nests.refl st
    · split
      · exact Nests.refl st
      · exact Nests.refl st
  split
  · exact Nests.refl st
  split
  · exact Nests.refl st
  refine (loop n n st 0 off).trans ?_
  split
  · exact Nests.trans (setDinode_nests _ ip _) ((iupdate_nests _ ip).mono (by decide))
  · exact Nests.refl _

end operations

end Lxos.Fs
