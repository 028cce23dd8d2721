import Lxos.Fs.Log
import Lxos.Fs.References
import Lxos.Fs.Directory
import Lxos.Library.Outcome

/-! The operations that truncate no inode. Only `iput` can, and where it does the log
tells it. -/
namespace Lxos.Fs
open Lxos.Bytes Lxos.Outcome

/-- The event is the truncation of an inode. -/
def Event.cuts : Event → Prop
  | .itrunc _ _ => True
  | _ => False

/-- No inode was truncated between two states. -/
def Uncut (st st' : FsState) : Prop := ∃ es, Since st st' es ∧ ∀ e ∈ es, ¬e.cuts

section uncut
variable {st st' st'' : FsState} {dev : Nat} {ip dp : Slot}

theorem Uncut.quiet (trace : st'.trace = st.trace) : Uncut st st' := ⟨[],trace,fun _ inside => absurd inside List.not_mem_nil⟩

theorem Uncut.refl (st : FsState) : Uncut st st := .quiet rfl

theorem Uncut.trans (first : Uncut st st') (second : Uncut st' st'') : Uncut st st'' := by
  obtain ⟨es,since,plain⟩ := first
  obtain ⟨fs,since',plain'⟩ := second
  refine ⟨fs ++ es,since.trans since',fun e inside => ?_⟩
  rcases List.mem_append.mp inside with late | early
  · exact plain' e late
  · exact plain e early

theorem Uncut.emit {e : Event} (plain : ¬e.cuts) (trace : st'.trace = e :: st.trace) : Uncut st st' :=
  ⟨[e],trace,fun f inside => by rw [List.mem_singleton.mp inside]; exact plain⟩

theorem kprint_uncut (st : FsState) (m : Message) : Uncut st (kprint st m) := .emit id rfl

theorem print_uncut (st : FsState) (p : Prop) [Decidable p] (m : Message) : Uncut st (if p then kprint st m else st) := by
  split
  · exact kprint_uncut st m
  · exact Uncut.refl st

theorem bread_uncut (st : FsState) (dev b : Nat) : Uncut st (bread st dev b) := .emit id rfl

theorem brelse_uncut (st : FsState) (dev b : Nat) : Uncut st (brelse st dev b) := .emit id rfl

theorem bwrite_uncut (st : FsState) (dev b : Nat) (data : Block) : Uncut st (bwrite st dev b data) := .emit id rfl

theorem rewrite_uncut (st : FsState) (dev b : Nat) (data : Block) :
    Uncut st (brelse (bwrite (bread st dev b) dev b data) dev b) :=
  ((bread_uncut st dev b).trans (bwrite_uncut _ dev b data)).trans (brelse_uncut _ dev b)

theorem setInode_uncut (st : FsState) (ip : Slot) (v : Inode) : Uncut st (st.setInode ip v) := .quiet rfl

theorem setDinode_uncut (st : FsState) (ip : Slot) (d : Dinode) : Uncut st (st.setDinode ip d) := .quiet rfl

theorem balloc_uncut (st : FsState) (dev : Nat) : Uncut st (balloc st dev).2 := by
  have loop (fuel : Nat) (st : FsState) (b : Nat) : Uncut st (ballocBlocks dev fuel st b).2 := by
    induction fuel generalizing st b with
    | zero => exact kprint_uncut st _
    | succ fuel ih =>
      unfold ballocBlocks
      split
      · dsimp only
        split
        · exact (rewrite_uncut st dev _ _).trans (rewrite_uncut _ dev _ zeros)
        · exact ((bread_uncut st dev _).trans (brelse_uncut _ dev _)).trans (ih _ _)
      · exact kprint_uncut st _
  exact loop _ st 0

theorem iupdate_uncut (st : FsState) (ip : Slot) : Uncut st (iupdate st ip) := rewrite_uncut st _ _ _

theorem ilock_uncut (st : FsState) (ip : Slot) : Uncut st (ilock st ip) := by
  unfold ilock
  dsimp only
  refine (print_uncut st ((st.icache ip).ref < 1) .ilock).trans ?_
  generalize (if (st.icache ip).ref < 1 then kprint st .ilock else st) = st1
  split
  · exact Uncut.refl st1
  · have loaded (d : Dinode) (b : Nat) : Uncut st1 (brelse (FsState.setDinode (bread st1 (st1.icache ip).dev b) ip d)
        (st1.icache ip).dev b) :=
      ((bread_uncut st1 _ b).trans (setDinode_uncut _ ip d)).trans (brelse_uncut _ _ b)
    exact ((loaded _ _).trans (setInode_uncut _ ip _)).trans (print_uncut _ _ _)

theorem iget_uncut {inum : Nat} {r : Slot × FsState} (ok : iget st dev inum = .ok r) : Uncut st r.2 := .quiet (iget_got ok).trace

theorem bmap_uncut (st : FsState) (ip : Slot) (bn : Nat) : Uncut st (bmap st ip bn).2 := by
  have alloc (st : FsState) (dev i : Nat) : Uncut st ((balloc st dev).2.setAddr ip i (balloc st dev).1) :=
    (balloc_uncut st dev).trans (setDinode_uncut _ ip _)
  unfold bmap
  dsimp only
  split
  · split
    · exact alloc st _ _
    · exact Uncut.refl st
  · split
    · generalize (st.icache ip).dev = dev
      have table : Uncut st (if (st.icache ip).addr ndirect = 0 then
            ((balloc st dev).1,(balloc st dev).2.setAddr ip ndirect (balloc st dev).1)
          else ((st.icache ip).addr ndirect,st)).2 := by
        split
        · exact alloc st dev ndirect
        · exact Uncut.refl st
      generalize (if (st.icache ip).addr ndirect = 0 then
          ((balloc st dev).1,(balloc st dev).2.setAddr ip ndirect (balloc st dev).1)
        else ((st.icache ip).addr ndirect,st)) = r at table ⊢
      obtain ⟨addr,st1⟩ := r
      refine table.trans ((bread_uncut st1 dev addr).trans ?_)
      dsimp only
      split
      · exact ((balloc_uncut _ dev).trans (bwrite_uncut _ dev addr _)).trans (brelse_uncut _ dev addr)
      · exact brelse_uncut _ dev addr
    · exact kprint_uncut st _

theorem readi_uncut (st : FsState) (ip : Slot) (dst : Buffer) (off n : Nat) : Uncut st (readi st ip dst off n).2.2 := by
  have loop (n fuel : Nat) (st : FsState) (dst : Buffer) (tot off : Nat) : Uncut st (readiLoop ip n fuel st dst tot off).2 := by
    induction fuel generalizing st dst tot off with
    | zero => exact Uncut.refl st
    | succ fuel ih =>
      unfold readiLoop
      split
      · exact (bmap_uncut st ip (off / bsize)).trans (((bread_uncut _ _ _).trans (brelse_uncut _ _ _)).trans (ih _ _ _ _))
      · exact Uncut.refl st
  unfold readi
  dsimp only
  split
  · split
    · exact Uncut.refl st
    · exact Uncut.refl st
  · split
    · exact Uncut.refl st
    · exact loop _ _ _ _ _ _

theorem writei_uncut (st : FsState) (ip : Slot) (src : Buffer) (off n : Nat) : Uncut st (writei st ip src off n).2 := by
  have loop (n fuel : Nat) (st : FsState) (tot off : Nat) : Uncut st (writeiLoop ip src n fuel st tot off).2 := by
    induction fuel generalizing st tot off with
    | zero => exact Uncut.refl st
    | succ fuel ih =>
      unfold writeiLoop
      split
      · exact (bmap_uncut st ip (off / bsize)).trans ((rewrite_uncut _ _ _ _).trans (ih _ _ _))
      · exact Uncut.refl st
  unfold writei
  dsimp only
  split
  · split
    · exact Uncut.refl st
    · split
      · exact Uncut.refl st
      · exact Uncut.refl st
  split
  · exact Uncut.refl st
  split
  · exact Uncut.refl st
  refine (loop n n st 0 off).trans ?_
  split
  · exact (setDinode_uncut _ ip _).trans (iupdate_uncut _ ip)
  · exact Uncut.refl _

theorem readEntry_uncut (st : FsState) (dp : Slot) (de : Buffer) (off : Nat) (m : Message) :
    Uncut st (if (readi st dp de off direntSize).1 ≠ direntSize then
      kprint (readi st dp de off direntSize).2.2 m else (readi st dp de off direntSize).2.2) :=
  (readi_uncut st dp de off direntSize).trans (print_uncut _ _ m)

theorem dirlookup_uncut (st : FsState) (dp : Slot) (name : Buffer) :
    Meets (fun _ => True) (dirlookup st dp name) fun r => Uncut st r.2 := by
  have loop (fuel : Nat) (st : FsState) (de : Buffer) (off : Nat) :
      Meets (fun _ => True) (dirlookupLoop dp name fuel st de off) fun r => Uncut st r.2 := by
    induction fuel generalizing st de off with
    | zero => trivial
    | succ fuel ih =>
      unfold dirlookupLoop
      split
      · have round := readEntry_uncut st dp de off .dirlookupRead
        generalize readi st dp de off direntSize = r at round ⊢
        obtain ⟨r,de,st1⟩ := r
        dsimp only at round ⊢
        generalize (if r ≠ ((direntSize : Nat) : Int) then kprint st1 .dirlookupRead else st1) = st2 at round ⊢
        have later := (ih st2 de (u32 (off + direntSize))).mono fun _ => round.trans
        split
        · exact later
        · split
          · split
            · rename_i ip st3 ok
              exact round.trans (iget_uncut ok)
            · trivial
          · exact later
      · exact Uncut.refl st
  have start := print_uncut st ((st.icache dp).type ≠ tDir) .dirlookupDir
  unfold dirlookup
  exact (loop _ _ _ _).mono fun _ => start.trans

theorem dirlinkLoop_uncut (fuel : Nat) (st : FsState) (dp : Slot) (de : Buffer) (off : Nat) :
    Meets (fun _ => True) (dirlinkLoop dp fuel st de off) fun r => Uncut st r.2 := by
  induction fuel generalizing st de off with
  | zero => trivial
  | succ fuel ih =>
    unfold dirlinkLoop
    split
    · have round := readEntry_uncut st dp de off .dirlinkRead
      dsimp only
      split
      · exact round
      · exact (ih _ _ _).mono fun _ => round.trans
    · exact Uncut.refl st

theorem ialloc_uncut (st : FsState) (dev : Nat) (type : BitVec 16) :
    Meets (fun _ => True) (ialloc st dev type) fun r => Uncut st r.2 := by
  have loop (fuel : Nat) (st : FsState) (inum : Nat) :
      Meets (fun _ => True) (iallocLoop dev type fuel st inum) fun r => Uncut st r.2 := by
    induction fuel generalizing st inum with
    | zero => exact kprint_uncut st _
    | succ fuel ih =>
      unfold iallocLoop
      split
      · dsimp only
        split
        · have claimed : Uncut st (claimDinode (bread st dev (st.sb.iblock inum)) dev inum type) :=
            rewrite_uncut st dev _ _
          generalize claimDinode (bread st dev (st.sb.iblock inum)) dev inum type = st1 at claimed ⊢
          split
          · trivial
          · rename_i ip st2 ok
            exact claimed.trans (iget_uncut ok)
        · exact (ih _ _).mono fun _ => ((bread_uncut st dev _).trans (brelse_uncut _ dev _)).trans
      · exact kprint_uncut st _
  exact loop _ st 1

end uncut

end Lxos.Fs
