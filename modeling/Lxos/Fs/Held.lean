import Lxos.Fs.References
import Lxos.Fs.Directory
import Lxos.Library.Outcome

/-! The references that a computation holds. Whatever the disk contains, every
operation gives back the references it takes, and fewer holders than slots keep
`iget` from failing. -/
namespace Lxos.Fs
open Lxos.Bytes Lxos.Handles Lxos.Outcome

/-- The failures of `fs.c` that remain: an endless loop, and the null pointer of `ialloc`. -/
def Tolerated (e : Fault) : Prop := e = .hang ∨ e = .nullInode

instance : DecidablePred Tolerated := fun e => inferInstanceAs (Decidable (e = .hang ∨ e = .nullInode))

/-- The slots referenced are those listed, once for each reference. -/
structure Held (hs : List Slot) (st : FsState) : Prop where
  counts : Counts (fun s => (st.icache s).ref) hs
  unique : st.Unique

section held
variable {hs hs' : List Slot} {st st' : FsState} {s ip dp : Slot}

theorem Held.perm (held : Held hs st) (same : hs.Perm hs') : Held hs' st :=
  ⟨held.counts.perm same,held.unique⟩

theorem Held.calm (held : Held hs st) (calm : Calm st st') : Held hs st' :=
  ⟨held.counts.congr calm.ref,calm.unique held.unique⟩

theorem Held.positive (held : Held hs st) (inside : s ∈ hs) : 0 < (st.icache s).ref :=
  held.counts.positive.mpr inside

theorem Got.held {dev k : Nat} (got : Got dev k s st st') (held : Held hs st) : Held (s :: hs) st' :=
  ⟨held.counts.add got.ref (fun t other => by rw [got.other t other]),got.unique held.unique⟩

theorem Held.iget (held : Held hs st) (room : hs.length < 50) (dev k : Nat) :
    Meets Tolerated (iget st dev k) (fun r => Got dev k r.1 st r.2 ∧ Held (r.1 :: hs) r.2) := by
  obtain ⟨t,st',ok⟩ := @iget_ok dev k st (held.counts.free (by rw [Fintype.card_fin]; exact room))
  rw [ok]
  have got := iget_got ok
  exact ⟨got,got.held held⟩

theorem Held.idup (held : Held hs st) (inside : ip ∈ hs) : Held (ip :: hs) (idup st ip) := by
  have other (t : Slot) (h : t ≠ ip) : (Fs.idup st ip).icache t = st.icache t := st.setInode_other _ _ _ h
  have here : (Fs.idup st ip).icache ip = { st.icache ip with ref := (st.icache ip).ref + 1 } :=
    st.setInode_same _ _
  refine ⟨held.counts.add ?_ ?_,?_⟩
  · rw [here]
  · exact fun t h => by rw [other t h]
  · have positive := held.positive inside
    have ref (t : Slot) : 0 < ((Fs.idup st ip).icache t).ref → 0 < (st.icache t).ref := by
      rcases eq_or_ne t ip with rfl | h
      · exact fun _ => positive
      · rw [other t h]
        exact id
    have name (t : Slot) : ((Fs.idup st ip).icache t).dev = (st.icache t).dev ∧
        ((Fs.idup st ip).icache t).inum = (st.icache t).inum := by
      rcases eq_or_ne t ip with rfl | h
      · rw [here]
        exact ⟨rfl,rfl⟩
      · rw [other t h]
        exact ⟨rfl,rfl⟩
    intro a b refa refb
    rw [(name a).1,(name b).1,(name a).2,(name b).2]
    exact held.unique a b (ref a refa) (ref b refb)

theorem Held.drop (held : Held (ip :: hs) st) :
    Held hs (st.setInode ip { st.icache ip with ref := (st.icache ip).ref - 1 }) := by
  have other (t : Slot) (h : t ≠ ip) := st.setInode_other ip t { st.icache ip with ref := (st.icache ip).ref - 1 } h
  refine ⟨held.counts.drop ?_ ?_,?_⟩
  · rw [FsState.setInode_same]
  · exact fun t h => by rw [other t h]
  · have before (t : Slot) : 0 < ((st.setInode ip { st.icache ip with ref := (st.icache ip).ref - 1 }).icache t).ref →
        0 < (st.icache t).ref := by
      rcases eq_or_ne t ip with rfl | h
      · exact fun _ => held.positive List.mem_cons_self
      · rw [other t h]
        exact id
    have name (t : Slot) : ((st.setInode ip { st.icache ip with ref := (st.icache ip).ref - 1 }).icache t).dev =
        (st.icache t).dev ∧ ((st.setInode ip { st.icache ip with ref := (st.icache ip).ref - 1 }).icache t).inum =
        (st.icache t).inum := by
      rcases eq_or_ne t ip with rfl | h
      · rw [FsState.setInode_same]
        exact ⟨rfl,rfl⟩
      · rw [other t h]
        exact ⟨rfl,rfl⟩
    intro a b refa refb
    rw [(name a).1,(name b).1,(name a).2,(name b).2]
    exact held.unique a b (before a refa) (before b refb)

/-- `iput` up to its last step. -/
def iputFree (st : FsState) (ip : Slot) : FsState :=
  let st := itrunc st ip
  let st := st.setDinode ip { (st.icache ip).toDinode with type := 0 }
  let st := iupdate st ip
  st.setInode ip { st.icache ip with valid := false }

theorem iputFree_calm (st : FsState) (ip : Slot) : Calm st (iputFree st ip) := by
  have invalid (st : FsState) : Calm st (st.setInode ip { st.icache ip with valid := false }) := by
    refine ⟨fun s => ?_,fun s => ?_,fun s => ?_,rfl,List.suffix_refl _⟩
    all_goals
      rcases eq_or_ne s ip with rfl | h
      · rw [FsState.setInode_same]
      · rw [FsState.setInode_other _ _ _ _ h]
  exact (itrunc_local st ip).calm.trans ((setDinode_local _ _ _).calm.trans
    (((iupdate_io _ _).toLocal ip).calm.trans (invalid _)))

theorem iput_eq (st : FsState) (ip : Slot) : iput st ip =
    let st := if (st.icache ip).valid ∧ (st.icache ip).nlink = 0 ∧ (st.icache ip).ref = 1 then iputFree st ip else st
    st.setInode ip { st.icache ip with ref := (st.icache ip).ref - 1 } := rfl

theorem Held.iput (held : Held (ip :: hs) st) : Held hs (iput st ip) := by
  rw [iput_eq]
  dsimp only
  split
  · exact (held.calm (iputFree_calm st ip)).drop
  · exact held.drop

theorem iunlock_calm (st : FsState) (ip : Slot) : Calm st (iunlock st ip) := by
  unfold iunlock
  split
  · exact ((emit_io st _).toLocal ip).calm
  · exact Calm.refl st

theorem Held.iunlockput (held : Held (ip :: hs) st) : Held hs (iunlockput st ip) :=
  (held.calm (iunlock_calm st ip)).iput

theorem print_mapped (st : FsState) (p : Prop) [Decidable p] (m : Message) (ip : Slot) :
    Mapped ip st (if p then kprint st m else st) := by
  split
  · exact (emit_io st _).toMapped ip
  · exact Mapped.refl ip st

/-- One round of the loops over a directory. -/
theorem readEntry_mapped (st : FsState) (dp : Slot) (de : Buffer) (off : Nat) (m : Message) :
    Mapped dp st (if (readi st dp de off direntSize).1 ≠ direntSize then kprint (readi st dp de off direntSize).2.2 m
      else (readi st dp de off direntSize).2.2) :=
  (readi_mapped st dp de off direntSize).trans (print_mapped _ _ m dp)

theorem Held.dirlookupLoop (held : Held hs st) (room : hs.length < 50) (name : Buffer) (fuel : Nat)
    (de : Buffer) (off : Nat) : Meets Tolerated (dirlookupLoop dp name fuel st de off) (fun r =>
      ∃ st1, Mapped dp st st1 ∧ match r.1 with
        | none => r.2 = st1
        | some (ip,_) => ∃ k, Got (st1.icache dp).dev k ip st1 r.2 ∧ Held (ip :: hs) r.2) := by
  induction fuel generalizing st de off with
  | zero => exact Meets.error (by decide)
  | succ fuel ih =>
    unfold Fs.dirlookupLoop
    split
    · have round := readEntry_mapped st dp de off .dirlookupRead
      generalize readi st dp de off direntSize = r at round ⊢
      obtain ⟨r,de,st1⟩ := r
      dsimp only at round ⊢
      generalize (if r ≠ ((direntSize : Nat) : Int) then kprint st1 .dirlookupRead else st1) = st2 at round ⊢
      have next := held.calm round.toLocal.calm
      have later : Meets Tolerated (Fs.dirlookupLoop dp name fuel st2 de (u32 (off + direntSize))) (fun r =>
          ∃ st1, Mapped dp st st1 ∧ match r.1 with
            | none => r.2 = st1
            | some (ip,_) => ∃ k, Got (st1.icache dp).dev k ip st1 r.2 ∧ Held (ip :: hs) r.2) := by
        refine (ih next de (u32 (off + direntSize))).mono ?_
        rintro r ⟨st3,change,result⟩
        exact ⟨st3,round.trans change,result⟩
      split
      · exact later
      · split
        · rcases (next.iget room (st2.icache dp).dev (le16 de 0).toNat).cases with
            ⟨e,fail,tolerated⟩ | ⟨⟨ip,st3⟩,ok,got,held3⟩
          · rw [fail]
            exact tolerated
          · rw [ok]
            exact ⟨st2,round,_,got,held3⟩
        · exact later
    · exact ⟨st,Mapped.refl dp st,rfl⟩

theorem Held.dirlookup (held : Held hs st) (room : hs.length < 50) (dp : Slot) (name : Buffer) :
    Meets Tolerated (dirlookup st dp name) (fun r =>
      match r.1 with
      | none => Held hs r.2 ∧ Mapped dp st r.2
      | some (ip,_) => Held (ip :: hs) r.2) := by
  have start := print_mapped st ((st.icache dp).type ≠ tDir) .dirlookupDir dp
  unfold Fs.dirlookup
  dsimp only
  generalize (if (st.icache dp).type ≠ tDir then kprint st .dirlookupDir else st) = st0 at start ⊢
  refine ((held.calm start.toLocal.calm).dirlookupLoop room name (entries+1) st0.stack 0).mono ?_
  rintro ⟨r,st2⟩ ⟨st1,change,result⟩
  match r, result with
  | none, result =>
    dsimp only at result ⊢
    rw [result]
    have whole := start.trans change
    exact ⟨held.calm whole.toLocal.calm,whole⟩
  | some (ip,_), result =>
    obtain ⟨_,_,held2⟩ := result
    exact held2

theorem dirlinkLoop_calm (st : FsState) (dp : Slot) (fuel : Nat) (de : Buffer) (off : Nat) :
    Meets Tolerated (dirlinkLoop dp fuel st de off) (fun r => Calm st r.2) := by
  induction fuel generalizing st de off with
  | zero => exact Meets.error (by decide)
  | succ fuel ih =>
    unfold dirlinkLoop
    split
    · have round := (readEntry_mapped st dp de off .dirlinkRead).toLocal.calm
      dsimp only
      split
      · exact round
      · exact (ih _ _ _).mono (fun r calm => round.trans calm)
    · exact Calm.refl st

theorem Held.dirlink (held : Held hs st) (room : hs.length < 50) (dp : Slot) (name : Buffer) (inum : Nat) :
    Meets Tolerated (dirlink st dp name inum) (fun r => Held hs r.2) := by
  unfold Fs.dirlink
  rcases (held.dirlookup room dp name).cases with ⟨e,fail,tolerated⟩ | ⟨⟨_ | ⟨ip,off⟩,st1⟩,found,held1⟩
  · rw [fail]
    exact tolerated
  · rw [found]
    have held1 := held1.1
    dsimp only
    rcases (dirlinkLoop_calm st1 dp (entries+1) st1.stack 0).cases with ⟨e,fail,tolerated⟩ | ⟨⟨off,st2⟩,ok,calm⟩
    · rw [fail]
      exact tolerated
    · rw [ok]
      exact (held1.calm calm).calm ((writei_local _ _ _ _ _).calm.trans (print_mapped _ _ _ dp).toLocal.calm)
  · rw [found]
    exact Held.iput held1

theorem Held.iallocLoop (held : Held hs st) (room : hs.length < 50) (dev : Nat) (type : BitVec 16)
    (fuel inum : Nat) : Meets Tolerated (iallocLoop dev type fuel st inum) (fun r =>
      match r.1 with
      | none => Held hs r.2
      | some ip => Held (ip :: hs) r.2) := by
  have quiet (st : FsState) (e : Event) : Calm st (st.emit e) := ((emit_io st e).toLocal 0).calm
  induction fuel generalizing st inum with
  | zero => exact held.calm (quiet st _)
  | succ fuel ih =>
    unfold Fs.iallocLoop
    split
    · dsimp only
      split
      · have calm : Calm st (claimDinode (bread st dev (st.sb.iblock inum)) dev inum type) :=
          (quiet st _).trans ((((bwrite_io _ _ _ _).toLocal 0).calm).trans (quiet _ _))
        rcases ((held.calm calm).iget room dev inum).cases with ⟨e,fail,tolerated⟩ | ⟨⟨ip,st1⟩,ok,_,held1⟩
        · rw [fail]
          exact tolerated
        · rw [ok]
          exact held1
      · exact ih (held.calm ((quiet st _).trans (quiet _ _))) _
    · exact held.calm (quiet st _)

end held

end Lxos.Fs
