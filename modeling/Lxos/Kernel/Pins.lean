import Lxos.Fs.Log
import Lxos.Kernel.References

/-! Buffers pinned by directory operations, path walks and system calls: all of them are
released again, and there are never more than two. -/
namespace Lxos.Kernel
open Lxos.Bytes Lxos.Fs Lxos.Outcome Lxos.Nesting

/-- A function that returns has released what it pinned, two buffers at a time at most. -/
abbrev Pinning {α : Type} (st : FsState) (r : Except Fault α) (left : α → FsState) : Prop :=
  Meets (fun _ => True) r (fun r => Nests 2 [] st (left r))

section directories
variable {st : FsState} {dp ip : Slot}

theorem readEntry_nests (st : FsState) (dp : Slot) (de : Buffer) (off : Nat) (m : Message) :
    Nests 2 [] st (if (readi st dp de off direntSize).1 ≠ direntSize then
      kprint (readi st dp de off direntSize).2.2 m else (readi st dp de off direntSize).2.2) :=
  (readi_nests st dp de off direntSize).trans (Nests.printIf _ _ m)

theorem dirlookup_nests (st : FsState) (dp : Slot) (name : Buffer) : Pinning st (dirlookup st dp name) Prod.snd := by
  have loop (fuel : Nat) (st : FsState) (de : Buffer) (off : Nat) :
      Pinning st (dirlookupLoop dp name fuel st de off) Prod.snd := by
    induction fuel generalizing st de off with
    | zero => trivial
    | succ fuel ih =>
      unfold dirlookupLoop
      split
      · have round := readEntry_nests st dp de off .dirlookupRead
        generalize readi st dp de off direntSize = r at round ⊢
        obtain ⟨r,de,st1⟩ := r
        dsimp only at round ⊢
        generalize (if r ≠ ((direntSize : Nat) : Int) then kprint st1 .dirlookupRead else st1) = st2 at round ⊢
        have later := (ih st2 de (u32 (off + direntSize))).mono fun _ => round.trans
        split
        · exact later
        · split
          · split
            · rename_i ip st3 ok
              exact round.trans ((iget_nests ok).mono (by decide))
            · trivial
          · exact later
      · exact Nests.refl st
  have start : Nests 2 [] st _ := Nests.printIf st ((st.icache dp).type ≠ tDir) .dirlookupDir
  unfold dirlookup
  exact (loop _ _ _ _).mono fun _ => start.trans

theorem dirlink_nests (st : FsState) (dp : Slot) (name : Buffer) (inum : Nat) :
    Pinning st (dirlink st dp name inum) Prod.snd := by
  have loop (fuel : Nat) (st : FsState) (de : Buffer) (off : Nat) :
      Pinning st (dirlinkLoop dp fuel st de off) Prod.snd := by
    induction fuel generalizing st de off with
    | zero => trivial
    | succ fuel ih =>
      unfold dirlinkLoop
      split
      · have round := readEntry_nests st dp de off .dirlinkRead
        dsimp only
        split
        · exact round
        · exact (ih _ _ _).mono fun _ => round.trans
      · exact Nests.refl st
  unfold dirlink
  rcases (dirlookup_nests st dp name).cases with ⟨e,fail,_⟩ | ⟨⟨_ | ⟨ip,off⟩,st1⟩,ok,looked⟩
  · rw [fail]
    trivial
  · rw [ok]
    dsimp only
    rcases (loop (entries+1) st1 st1.stack 0).cases with ⟨e,fail,_⟩ | ⟨⟨off,st2⟩,ok,scanned⟩
    · rw [fail]
      trivial
    · rw [ok]
      exact ((looked.trans scanned).trans (writei_nests _ _ _ _ _)).trans (Nests.printIf _ _ _)
  · rw [ok]
    exact looked.trans (iput_nests st1 ip)

theorem ialloc_nests (st : FsState) (dev : Nat) (type : BitVec 16) : Pinning st (ialloc st dev type) Prod.snd := by
  have loop (fuel : Nat) (st : FsState) (inum : Nat) : Pinning st (iallocLoop dev type fuel st inum) Prod.snd := by
    induction fuel generalizing st inum with
    | zero => exact Nests.print st _
    | succ fuel ih =>
      unfold iallocLoop
      split
      · dsimp only
        split
        · have claimed : Nests 2 [] st (claimDinode (bread st dev (st.sb.iblock inum)) dev inum type) :=
            (rewrite_nests st dev _ _).mono (by decide)
          generalize claimDinode (bread st dev (st.sb.iblock inum)) dev inum type = st1 at claimed ⊢
          split
          · trivial
          · rename_i ip st2 ok
            exact claimed.trans ((iget_nests ok).mono (by decide))
        · exact (ih _ _).mono fun _ => ((Nests.pin (n := 1) (Nests.refl _)).trans ·)
      · exact Nests.print st _
  exact loop _ st 1

theorem createInode_nests (st : FsState) (ip : Slot) (major minor : BitVec 16) :
    Nests 2 [] st (createInode st ip major minor) :=
  ((ilock_nests st ip).trans ((setDinode_nests _ ip _).trans (iupdate_nests _ ip))).mono (by decide)

theorem createDots_nests (st : FsState) (dp ip : Slot) : Pinning st (createDots st dp ip) id := by
  have linked : Nests 2 [] st (iupdate (st.setDinode dp { (st.icache dp).toDinode with nlink := (st.icache dp).nlink + 1 }) dp) :=
    ((setDinode_nests st dp _).trans (iupdate_nests _ dp)).mono (by decide)
  unfold createDots
  dsimp only
  generalize iupdate (st.setDinode dp { (st.icache dp).toDinode with nlink := (st.icache dp).nlink + 1 }) dp = st1 at linked ⊢
  rcases (dirlink_nests st1 ip (bytes [46]) (st1.icache ip).inum).cases with ⟨e,fail,_⟩ | ⟨⟨r,st2⟩,ok,dot⟩
  · rw [fail]
    trivial
  rw [ok]
  dsimp only
  split
  · exact (linked.trans dot).trans (Nests.print st2 _)
  rcases (dirlink_nests st2 ip (bytes [46,46]) (st2.icache dp).inum).cases with ⟨e,fail,_⟩ | ⟨⟨r,st3⟩,ok,dotdot⟩
  · rw [fail]
    trivial
  rw [ok]
  exact ((linked.trans dot).trans dotdot).trans (Nests.printIf _ _ _)

theorem createNew_nests (st : FsState) (dp : Slot) (name : Buffer) (type major minor : BitVec 16) :
    Pinning st (createNew st dp name type major minor) Prod.snd := by
  unfold createNew
  rcases (ialloc_nests st (st.icache dp).dev type).cases with ⟨e,fail,_⟩ | ⟨⟨_ | ip,st1⟩,ok,allocated⟩
  · rw [fail]
    trivial
  · rw [ok]
    trivial
  rw [ok]
  dsimp only
  have made := allocated.trans (createInode_nests st1 ip major minor)
  generalize createInode st1 ip major minor = st2 at made ⊢
  have dots : Pinning st2 (if type = tDir then createDots st2 dp ip else .ok st2) id := by
    split
    · exact createDots_nests st2 dp ip
    · exact Nests.refl st2
  rcases dots.cases with ⟨e,fail,_⟩ | ⟨st3,ok,dotted⟩
  · rw [fail]
    trivial
  rw [ok]
  have prepared : Nests 2 [] st st3 := made.trans dotted
  dsimp only
  rcases (dirlink_nests st3 dp name (st3.icache ip).inum).cases with ⟨e,fail,_⟩ | ⟨⟨r,st4⟩,ok,entered⟩
  · rw [fail]
    trivial
  rw [ok]
  have linked : Nests 2 [] st (if r < 0 then kprint st4 .createDirlink else st4) :=
    (prepared.trans entered).trans (Nests.printIf st4 (r < 0) .createDirlink)
  dsimp only
  generalize (if r < 0 then kprint st4 .createDirlink else st4) = st5 at linked ⊢
  exact linked.trans (iunlockput_nests st5 dp)

theorem namex_nests (st : FsState) (cwd : Slot) (path : List Byte) (parent : Bool) :
    Pinning st (namex st cwd path parent) fun r => r.2.2 := by
  have loop (fuel : Nat) (st : FsState) (ip : Slot) (path : List Byte) (name : Buffer) :
      Pinning st (namexLoop parent fuel st ip path name) fun r => r.2.2 := by
    induction fuel generalizing st ip path name with
    | zero => trivial
    | succ fuel ih =>
      unfold namexLoop
      split
      · split
        · exact iput_nests st ip
        · exact Nests.refl st
      · rename_i path name _
        have locked := (ilock_nests st ip).mono (m := 2) (by decide)
        dsimp only
        generalize ilock st ip = st1 at locked ⊢
        split
        · exact locked.trans (iunlockput_nests st1 ip)
        split
        · exact locked.trans ((iunlock_nests st1 ip).mono (by decide))
        rcases (dirlookup_nests st1 ip name).cases with ⟨e,fail,_⟩ | ⟨⟨_ | ⟨next,off⟩,st2⟩,ok,looked⟩
        · rw [fail]
          trivial
        · rw [ok]
          exact (locked.trans looked).trans (iunlockput_nests st2 ip)
        · rw [ok]
          exact (ih _ _ _ _).mono fun _ => ((locked.trans looked).trans (iunlockput_nests st2 ip)).trans
  have start : Pinning st (if path.head? = some slash then iget st rootdev rootino else .ok (cwd,idup st cwd)) Prod.snd := by
    split
    · cases ok : iget st rootdev rootino with
      | error e => trivial
      | ok r => exact (iget_nests ok).mono (by decide)
    · exact setInode_nests st cwd _
  unfold namex
  rcases start.cases with ⟨e,fail,_⟩ | ⟨⟨ip,st1⟩,ok,started⟩
  · rw [fail]
    trivial
  · rw [ok]
    dsimp only
    exact (loop _ st1 ip path st1.stack).mono fun _ => started.trans

theorem create_nests (st : FsState) (cwd : Slot) (path : List Byte) (type major minor : BitVec 16) :
    Pinning st (create st cwd path type major minor) Prod.snd := by
  unfold create nameiparent
  rcases (namex_nests st cwd path true).cases with ⟨e,fail,_⟩ | ⟨⟨_ | dp,name,st1⟩,ok,walked⟩
  · rw [fail]
    trivial
  · rw [ok]
    exact walked
  rw [ok]
  have locked := walked.trans ((ilock_nests st1 dp).mono (by decide))
  dsimp only at locked ⊢
  generalize ilock st1 dp = st2 at locked ⊢
  rcases (dirlookup_nests st2 dp name).cases with ⟨e,fail,_⟩ | ⟨⟨_ | ⟨ip,off⟩,st3⟩,ok,looked⟩
  · rw [fail]
    trivial
  · rw [ok]
    have reached := locked.trans looked
    dsimp only at reached ⊢
    rcases (createNew_nests st3 dp name type major minor).cases with ⟨e,fail,_⟩ | ⟨⟨ip,st4⟩,ok,made⟩
    · rw [fail]
      trivial
    · rw [ok]
      exact reached.trans made
  · rw [ok]
    have reached := ((locked.trans looked).trans (iunlockput_nests st3 dp)).trans
      ((ilock_nests (iunlockput st3 dp) ip).mono (by decide))
    dsimp only at reached ⊢
    split
    · exact reached
    · exact reached.trans (iunlockput_nests _ ip)

end directories

/-- An invariant of the file system, and that everything pinned since `origin` is released. -/
theorem Guard.pinned {Inv : List Handle → FsState → Prop} (guard : Guard Inv) (origin : FsState) :
    Guard fun hs st => Inv hs st ∧ Nests 2 [] origin st where
  perm := fun inv same => ⟨guard.perm inv.1 same,inv.2⟩
  print := fun m inv blocks inodes => ⟨guard.print m inv.1 blocks inodes,inv.2.trans (Nests.print _ m)⟩
  stack := fun b inv => ⟨guard.stack b inv.1,inv.2.trans (Nests.quiet rfl rfl)⟩
  grant := fun inv valid file => ⟨guard.grant inv.1 valid file,inv.2⟩
  weaken := fun inv => ⟨guard.weaken inv.1,inv.2⟩
  root := by
    intro hs st inv room
    have got : Pinning st (iget st rootdev rootino) Prod.snd := by
      cases ok : iget st rootdev rootino with
      | error e => trivial
      | ok r => exact (iget_nests ok).mono (by decide)
    exact ((guard.root inv.1 room).and got).mono fun _ both => ⟨both.1,inv.2.trans both.2⟩
  dup := fun inv member => ⟨guard.dup inv.1 member,inv.2.trans (setInode_nests _ _ _)⟩
  lock := fun inv member => ⟨guard.lock inv.1 member,inv.2.trans ((ilock_nests _ _).mono (by decide))⟩
  put := fun inv => ⟨guard.put inv.1,inv.2.trans (iput_nests _ _)⟩
  read := fun dst off n inv member valid small =>
    ⟨guard.read dst off n inv.1 member valid small,inv.2.trans (readi_nests _ _ dst off n)⟩
  write := fun src off n inv member valid small =>
    ⟨guard.write src off n inv.1 member valid small,inv.2.trans (writei_nests _ _ src off n)⟩
  lookup := by
    intro hs st dp m name inv room member dir
    refine ((guard.lookup name inv.1 room member dir).and (dirlookup_nests st dp name)).mono ?_
    rintro ⟨_ | ⟨ip,off⟩,st1⟩ ⟨found,looked⟩
    · exact ⟨⟨found.1,inv.2.trans looked⟩,found.2⟩
    · exact ⟨found,inv.2.trans looked⟩
  enter := by
    intro hs st dp name type major minor inv room dir some_type regular
    exact ((guard.enter name type major minor inv.1 room dir some_type regular).and
      (createNew_nests st dp name type major minor)).mono fun _ both => ⟨both.1,inv.2.trans both.2⟩

end Lxos.Kernel
