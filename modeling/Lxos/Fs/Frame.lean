import Lxos.Fs.ReadWrite
import Mathlib.Data.List.Basic

/-! What each operation leaves alone in any state whatsoever: block operations
keep the inode cache, operations on one inode keep every other slot and the
identity of their own, and the trace only grows. -/
namespace Lxos.Fs
open Lxos.Bytes

/-- Blocks may change, the inode cache does not. -/
structure DiskOnly (st st' : FsState) : Prop where
  icache : st'.icache = st.icache
  stack : st'.stack = st.stack
  trace : st.trace <:+ st'.trace

/-- Of the inode cache, only the dinode copy in slot `ip` may change. -/
structure Local (ip : Slot) (st st' : FsState) : Prop where
  other : ∀ s, s ≠ ip → st'.icache s = st.icache s
  self : ∃ d, st'.icache ip = { st.icache ip with toDinode := d }
  stack : st'.stack = st.stack
  trace : st.trace <:+ st'.trace

/-- Of the inode cache, only the addresses in slot `ip` may change. -/
structure Mapped (ip : Slot) (st st' : FsState) : Prop where
  other : ∀ s, s ≠ ip → st'.icache s = st.icache s
  self : ∃ a, st'.icache ip = { st.icache ip with addrs := a }
  stack : st'.stack = st.stack
  trace : st.trace <:+ st'.trace

/-- No reference is taken or dropped, and no slot changes its inode. -/
structure Calm (st st' : FsState) : Prop where
  dev : ∀ s, (st'.icache s).dev = (st.icache s).dev
  inum : ∀ s, (st'.icache s).inum = (st.icache s).inum
  ref : ∀ s, (st'.icache s).ref = (st.icache s).ref
  stack : st'.stack = st.stack
  trace : st.trace <:+ st'.trace

section relations
variable {ip : Slot} {st st' st'' : FsState}

@[refl] theorem DiskOnly.refl (st : FsState) : DiskOnly st st := ⟨rfl,rfl,List.suffix_refl _⟩

theorem DiskOnly.trans (first : DiskOnly st st') (second : DiskOnly st' st'') : DiskOnly st st'' :=
  ⟨second.icache.trans first.icache,second.stack.trans first.stack,first.trace.trans second.trace⟩

theorem DiskOnly.toLocal (io : DiskOnly st st') (ip : Slot) : Local ip st st' :=
  ⟨fun _ _ => by rw [io.icache],⟨_,by rw [io.icache]⟩,io.stack,io.trace⟩

theorem Local.refl (ip : Slot) (st : FsState) : Local ip st st := (DiskOnly.refl st).toLocal ip

theorem Local.trans (first : Local ip st st') (second : Local ip st' st'') : Local ip st st'' where
  other := fun s h => (second.other s h).trans (first.other s h)
  self := by
    obtain ⟨d,hd⟩ := first.self
    obtain ⟨e,he⟩ := second.self
    exact ⟨e,by rw [he,hd]⟩
  stack := second.stack.trans first.stack
  trace := first.trace.trans second.trace

theorem DiskOnly.toMapped (io : DiskOnly st st') (ip : Slot) : Mapped ip st st' :=
  ⟨fun _ _ => by rw [io.icache],⟨_,by rw [io.icache]⟩,io.stack,io.trace⟩

theorem Mapped.refl (ip : Slot) (st : FsState) : Mapped ip st st := (DiskOnly.refl st).toMapped ip

theorem Mapped.trans (first : Mapped ip st st') (second : Mapped ip st' st'') : Mapped ip st st'' where
  other := fun s h => (second.other s h).trans (first.other s h)
  self := by
    obtain ⟨a,ha⟩ := first.self
    obtain ⟨b,hb⟩ := second.self
    exact ⟨b,by rw [hb,ha]⟩
  stack := second.stack.trans first.stack
  trace := first.trace.trans second.trace

theorem Mapped.toLocal (change : Mapped ip st st') : Local ip st st' := by
  obtain ⟨a,ha⟩ := change.self
  exact ⟨change.other,⟨_,ha⟩,change.stack,change.trace⟩

theorem Mapped.type (change : Mapped ip st st') : (st'.icache ip).type = (st.icache ip).type := by
  obtain ⟨a,ha⟩ := change.self
  rw [ha]

theorem Local.dev (change : Local ip st st') (s : Slot) : (st'.icache s).dev = (st.icache s).dev := by
  by_cases here : s = ip
  · subst s
    obtain ⟨d,hd⟩ := change.self
    rw [hd]
  · rw [change.other s here]

theorem Local.inum (change : Local ip st st') (s : Slot) : (st'.icache s).inum = (st.icache s).inum := by
  by_cases here : s = ip
  · subst s
    obtain ⟨d,hd⟩ := change.self
    rw [hd]
  · rw [change.other s here]

theorem Local.ref (change : Local ip st st') (s : Slot) : (st'.icache s).ref = (st.icache s).ref := by
  by_cases here : s = ip
  · subst s
    obtain ⟨d,hd⟩ := change.self
    rw [hd]
  · rw [change.other s here]

theorem Local.valid (change : Local ip st st') (s : Slot) : (st'.icache s).valid = (st.icache s).valid := by
  by_cases here : s = ip
  · subst s
    obtain ⟨d,hd⟩ := change.self
    rw [hd]
  · rw [change.other s here]

theorem Local.calm (change : Local ip st st') : Calm st st' :=
  ⟨change.dev,change.inum,change.ref,change.stack,change.trace⟩

theorem Calm.refl (st : FsState) : Calm st st := (Local.refl 0 st).calm

theorem Calm.trans (first : Calm st st') (second : Calm st' st'') : Calm st st'' where
  dev := fun s => (second.dev s).trans (first.dev s)
  inum := fun s => (second.inum s).trans (first.inum s)
  ref := fun s => (second.ref s).trans (first.ref s)
  stack := second.stack.trans first.stack
  trace := first.trace.trans second.trace

end relations

theorem emit_io (st : FsState) (e : Event) : DiskOnly st (st.emit e) :=
  ⟨rfl,rfl,List.suffix_cons _ _⟩

theorem bwrite_io (st : FsState) (dev b : Nat) (data : Block) : DiskOnly st (bwrite st dev b data) :=
  ⟨rfl,rfl,List.suffix_cons _ _⟩

theorem setDinode_local (st : FsState) (ip : Slot) (d : Dinode) : Local ip st (st.setDinode ip d) :=
  ⟨fun _ h => st.setDinode_other ip _ d h,⟨d,st.setDinode_same ip d⟩,rfl,List.suffix_refl _⟩

theorem readsb_io (st : FsState) (dev : Nat) : DiskOnly st (readsb st dev) :=
  ⟨rfl,rfl,⟨[_,_],rfl⟩⟩

theorem bzero_io (st : FsState) (dev bno : Nat) : DiskOnly st (bzero st dev bno) :=
  ((emit_io st _).trans (bwrite_io _ _ _ _)).trans (emit_io _ _)

theorem ballocBlocks_io (dev fuel : Nat) (st : FsState) (b : Nat) :
    DiskOnly st (ballocBlocks dev fuel st b).2 := by
  induction fuel generalizing st b with
  | zero => exact emit_io _ _
  | succ fuel ih =>
    unfold ballocBlocks
    split
    · dsimp only
      split
      · exact ((emit_io st _).trans (bwrite_io _ _ _ _)).trans ((emit_io _ _).trans (bzero_io _ _ _))
      · exact ((emit_io st _).trans (emit_io _ _)).trans (ih _ _)
    · exact emit_io _ _

theorem balloc_io (st : FsState) (dev : Nat) : DiskOnly st (balloc st dev).2 := ballocBlocks_io _ _ _ _

theorem bfree_io (st : FsState) (dev b : Nat) : DiskOnly st (bfree st dev b) := by
  have read := (readsb_io st dev).trans (emit_io (readsb st dev) (.bread dev ((readsb st dev).sb.bblock b)))
  unfold bfree
  dsimp only
  split
  · exact (read.trans (emit_io _ _)).trans ((bwrite_io _ _ _ _).trans (emit_io _ _))
  · exact read.trans ((bwrite_io _ _ _ _).trans (emit_io _ _))

theorem iupdate_io (st : FsState) (ip : Slot) : DiskOnly st (iupdate st ip) :=
  ((emit_io st _).trans (bwrite_io _ _ _ _)).trans (emit_io _ _)

theorem setAddr_mapped (st : FsState) (ip : Slot) (i v : Nat) : Mapped ip st (st.setAddr ip i v) :=
  ⟨fun _ h => st.setDinode_other ip _ _ h,⟨_,st.setDinode_same ip _⟩,rfl,List.suffix_refl _⟩

theorem ballocAddr_mapped (st : FsState) (ip : Slot) (i dev : Nat) :
    Mapped ip st ((balloc st dev).2.setAddr ip i (balloc st dev).1) :=
  ((balloc_io st dev).toMapped ip).trans (setAddr_mapped _ _ _ _)

theorem bmap_mapped (st : FsState) (ip : Slot) (bn : Nat) : Mapped ip st (bmap st ip bn).2 := by
  unfold bmap
  dsimp only
  split
  · split
    · exact ballocAddr_mapped st ip _ _
    · exact Mapped.refl ip st
  · split
    · have entry (st : FsState) (dev addr i : Nat) : Mapped ip st
          (if (le32 (st.disk dev addr) i).toNat = 0 then
            ((balloc (bread st dev addr) dev).1,
              brelse (bwrite (balloc (bread st dev addr) dev).2 dev addr
                (put32 ((balloc (bread st dev addr) dev).2.disk dev addr) i
                  (BitVec.ofNat 32 (balloc (bread st dev addr) dev).1))) dev addr)
          else ((le32 (st.disk dev addr) i).toNat,brelse (bread st dev addr) dev addr)).2 := by
        split
        · exact (((emit_io st _).trans (balloc_io _ _)).trans
            ((bwrite_io _ _ _ _).trans (emit_io _ _))).toMapped ip
        · exact ((emit_io st _).trans (emit_io _ _)).toMapped ip
      split
      · exact (ballocAddr_mapped st ip _ _).trans (entry _ _ _ _)
      · exact entry _ _ _ _
    · exact (emit_io st _).toMapped ip

theorem itruncDirect_local (ip : Slot) (n : Nat) (st : FsState) : Local ip st (itruncDirect ip n st) := by
  induction n with
  | zero => exact Local.refl ip st
  | succ i ih =>
    unfold itruncDirect
    dsimp only
    split
    · exact ih
    · exact ih.trans (((bfree_io _ _ _).toLocal ip).trans (setDinode_local _ _ _))

theorem itruncEntries_io (dev blockno n : Nat) (st : FsState) :
    DiskOnly st (itruncEntries dev blockno n st) := by
  induction n with
  | zero => exact DiskOnly.refl st
  | succ j ih =>
    unfold itruncEntries
    dsimp only
    split
    · exact ih
    · exact ih.trans (bfree_io _ _ _)

theorem itrunc_local (st : FsState) (ip : Slot) : Local ip st (itrunc st ip) := by
  have direct := ((emit_io st (.itrunc (st.icache ip).dev (st.icache ip).inum)).toLocal ip).trans (itruncDirect_local ip ndirect _)
  have last (st : FsState) (d : Dinode) : Local ip st (iupdate (st.setDinode ip d) ip) :=
    (setDinode_local st ip d).trans ((iupdate_io _ _).toLocal ip)
  unfold itrunc
  dsimp only
  split
  · exact direct.trans (last _ _)
  · refine direct.trans (Local.trans ?_ (last _ _))
    exact ((((emit_io _ _).trans (itruncEntries_io _ _ _ _)).trans
      ((emit_io _ _).trans (bfree_io _ _ _))).toLocal ip).trans (setDinode_local _ _ _)

theorem readiLoop_mapped (ip : Slot) (n fuel : Nat) (st : FsState) (dst : Buffer) (tot off : Nat) :
    Mapped ip st (readiLoop ip n fuel st dst tot off).2 := by
  induction fuel generalizing st dst tot off with
  | zero => exact Mapped.refl ip st
  | succ fuel ih =>
    unfold readiLoop
    dsimp only
    split
    · exact ((bmap_mapped st ip _).trans (((emit_io _ _).trans (emit_io _ _)).toMapped ip)).trans (ih _ _ _ _)
    · exact Mapped.refl ip st

theorem readi_mapped (st : FsState) (ip : Slot) (dst : Buffer) (off n : Nat) :
    Mapped ip st (readi st ip dst off n).2.2 := by
  have stay := Mapped.refl ip st
  unfold readi
  dsimp only [devsw]
  split_ifs <;> first | exact stay | exact readiLoop_mapped _ _ _ _ _ _ _

theorem writeiLoop_local (ip : Slot) (src : Buffer) (n fuel : Nat) (st : FsState) (tot off : Nat) :
    Local ip st (writeiLoop ip src n fuel st tot off).2 := by
  induction fuel generalizing st tot off with
  | zero => exact Local.refl ip st
  | succ fuel ih =>
    unfold writeiLoop
    dsimp only
    split
    · have put (st : FsState) (dev addr : Nat) (data : Block) :
          Local ip st (brelse (bwrite (bread st dev addr) dev addr data) dev addr) :=
        ((emit_io st _).trans ((bwrite_io _ _ _ _).trans (emit_io _ _))).toLocal ip
      exact ((bmap_mapped st ip _).toLocal.trans (put _ _ _ _)).trans (ih _ _ _)
    · exact Local.refl ip st

theorem writei_local (st : FsState) (ip : Slot) (src : Buffer) (off n : Nat) :
    Local ip st (writei st ip src off n).2 := by
  have stay := Local.refl ip st
  have loop := writeiLoop_local ip src n n st 0 off
  unfold writei
  dsimp only [devsw]
  split_ifs <;> first
    | exact stay
    | exact loop
    | exact loop.trans ((setDinode_local _ _ _).trans ((iupdate_io _ _).toLocal ip))

theorem ilock_calm (st : FsState) (ip : Slot) : Calm st (ilock st ip) := by
  have load (st : FsState) (d : Dinode) : Calm st ((st.setDinode ip d).setInode ip
      { (st.setDinode ip d).icache ip with valid := true }) := by
    refine ⟨fun s => ?_,fun s => ?_,fun s => ?_,rfl,List.suffix_refl _⟩
    all_goals
      by_cases here : s = ip
      · subst s; simp
      · rw [FsState.setInode_other _ _ _ _ here,st.setDinode_other _ _ _ here]
  have quiet (st : FsState) (e : Event) : Calm st (st.emit e) := ((emit_io st e).toLocal ip).calm
  have body (st : FsState) : Calm st
      (if (st.icache ip).valid then st
      else
        let i := st.icache ip
        let bno := st.sb.iblock i.inum
        let st := bread st i.dev bno
        let d := Dinode.decode (st.disk i.dev bno) (inodeOffset i.inum)
        let st := brelse (st.setDinode ip d) i.dev bno
        let st := st.setInode ip { st.icache ip with valid := true }
        if d.type = 0 then kprint st .ilockType else st) := by
    split
    · exact Calm.refl st
    · dsimp only
      have loaded := (quiet st (.bread (st.icache ip).dev (st.sb.iblock (st.icache ip).inum))).trans
        (load _ (Dinode.decode (st.disk (st.icache ip).dev (st.sb.iblock (st.icache ip).inum))
          (inodeOffset (st.icache ip).inum)))
      split
      · exact (loaded.trans (quiet _ _)).trans (quiet _ _)
      · exact loaded.trans (quiet _ _)
  unfold ilock
  dsimp only
  split
  · exact (quiet st _).trans (body _)
  · exact body st

theorem ilock_kept {st : FsState} {ip : Slot} (valid : (st.icache ip).valid = true) :
    (ilock st ip).icache = st.icache := by
  unfold ilock
  split <;> simp [valid]

theorem ilock_valid (st : FsState) (ip : Slot) : ((ilock st ip).icache ip).valid = true := by
  cases before : (st.icache ip).valid with
  | true => rw [ilock_kept before,before]
  | false =>
    have load (st : FsState) (p : Prop) [Decidable p] (m : Message) :
        ((if p then kprint st m else st).icache ip).valid = (st.icache ip).valid := by
      split <;> rfl
    unfold ilock
    split <;> simp [before,load]

theorem iunlock_icache (st : FsState) (ip : Slot) : (iunlock st ip).icache = st.icache := by
  unfold iunlock
  split <;> rfl

end Lxos.Fs
