import Lxos.Fs.BlockMap
import Lxos.Library.Handles

/-! References to cached inodes. `iget` and `idup` take a handle, `iput` gives one
back; the volume does not notice which slots are referenced. -/
namespace Lxos.Fs
open Lxos.Bytes Lxos.Handles

/-- The slot holds a reference to inode `k`. -/
def FsState.Names (st : FsState) (dev k : Nat) (s : Slot) : Prop :=
  0 < (st.icache s).ref ∧ (st.icache s).dev = dev ∧ (st.icache s).inum = k

/-- `iget` returned slot `t`. A slot taken afresh was free, and no other held the inode. -/
structure Got (dev k : Nat) (t : Slot) (st st' : FsState) : Prop where
  disk : st'.disk = st.disk
  sb : st'.sb = st.sb
  stack : st'.stack = st.stack
  trace : st'.trace = st.trace
  other : ∀ s, s ≠ t → st'.icache s = st.icache s
  device : (st'.icache t).dev = dev
  inum : (st'.icache t).inum = k
  ref : (st'.icache t).ref = (st.icache t).ref + 1
  origin : st.Names dev k t ∧ (st'.icache t).toDinode = (st.icache t).toDinode ∧
      (st'.icache t).valid = (st.icache t).valid ∨
    (∀ s, ¬st.Names dev k s) ∧ (st.icache t).ref = 0 ∧ (st'.icache t).valid = false

section iget
variable {dev k : Nat} {s t : Slot} {st st' : FsState} {hs : List Slot}

theorem iget_got (ok : iget st dev k = .ok (t,st')) : Got dev k t st st' := by
  unfold iget at ok
  split at ok
  · rename_i found
    have test := List.find?_some found
    simp only [Bool.and_eq_true,beq_iff_eq,decide_eq_true_iff] at test
    obtain ⟨rfl,rfl⟩ := Prod.mk.inj (Except.ok.inj ok)
    refine ⟨rfl,rfl,rfl,rfl,fun s h => FsState.setInode_other _ _ _ _ h,?_,?_,?_,Or.inl ⟨⟨test.1.1,test.1.2,test.2⟩,?_⟩⟩
    all_goals simp [test.1.2,test.2]
  · rename_i absent
    split at ok
    · rename_i found
      have test := List.find?_some found
      simp only [beq_iff_eq] at test
      obtain ⟨rfl,rfl⟩ := Prod.mk.inj (Except.ok.inj ok)
      refine ⟨rfl,rfl,rfl,rfl,fun s h => FsState.setInode_other _ _ _ _ h,?_,?_,?_,Or.inr ⟨?_,test,?_⟩⟩
      · simp
      · simp
      · simp [test]
      · rintro s ⟨ref,dev',inum⟩
        have := List.find?_eq_none.mp absent s (List.mem_finRange s)
        simp [ref,dev',inum] at this
      · simp
    · exact absurd ok (by simp)

theorem iget_ok (free : ∃ s, (st.icache s).ref = 0) : ∃ t st', iget st dev k = .ok (t,st') := by
  unfold iget
  split
  · exact ⟨_,_,rfl⟩
  · split
    · exact ⟨_,_,rfl⟩
    · rename_i full
      obtain ⟨s,zero⟩ := free
      have := List.find?_eq_none.mp full s (List.mem_finRange s)
      simp [zero] at this

theorem Got.names (got : Got dev k t st st') : st'.Names dev k t := by
  refine ⟨?_,got.device,got.inum⟩
  rw [got.ref]
  rcases got.origin with ⟨names,_⟩ | ⟨_,zero,_⟩
  · have := names.1
    omega
  · omega

theorem Got.unique (got : Got dev k t st st') (unique : st.Unique) : st'.Unique := by
  have alone (s : Slot) (h : s ≠ t) (ref : 0 < (st.icache s).ref)
      (device : (st.icache s).dev = (st'.icache t).dev) (number : (st.icache s).inum = (st'.icache t).inum) :
      False := by
    rw [got.device] at device
    rw [got.inum] at number
    rcases got.origin with ⟨names,_⟩ | ⟨absent,_⟩
    · exact h (unique s t ref names.1 (device.trans names.2.1.symm) (number.trans names.2.2.symm))
    · exact absent s ⟨ref,device,number⟩
  intro a b refa refb device number
  by_cases left : a = t
  · by_cases right : b = t
    · rw [left,right]
    · subst a
      rw [got.other b right] at refb device number
      exact (alone b right refb device.symm number.symm).elim
  · rw [got.other a left] at refa device number
    by_cases right : b = t
    · subst b
      exact (alone a left refa device number).elim
    · rw [got.other b right] at refb device number
      exact unique a b refa refb device number

theorem Got.locked (got : Got dev k t st st') (d : Nat) (s : Slot) : st'.Locked d s ↔ st.Locked d s := by
  by_cases here : s = t
  · subst s
    unfold FsState.Locked
    rw [got.ref,got.device]
    rcases got.origin with ⟨names,_,valid⟩ | ⟨_,zero,invalid⟩
    · rw [names.2.1,valid]
      have := names.1
      exact ⟨fun h => ⟨names.1,h.2⟩,fun h => ⟨by omega,h.2⟩⟩
    · rw [zero,invalid]
      simp
  · unfold FsState.Locked
    rw [got.other s here]

theorem Got.copy (got : Got dev k t st st') {d : Nat} (locked : st.Locked d s) :
    (st'.icache s).toDinode = (st.icache s).toDinode ∧ (st'.icache s).inum = (st.icache s).inum := by
  by_cases here : s = t
  · subst s
    rcases got.origin with ⟨names,same,_⟩ | ⟨_,zero,_⟩
    · exact ⟨same,got.inum.trans names.2.2.symm⟩
    · exact absurd locked.1 (by omega)
  · rw [got.other s here]
    exact ⟨rfl,rfl⟩

theorem Got.volume (got : Got dev k t st st') (unique : st.Unique) (d : Nat) :
    st'.volume d = st.volume d := by
  have table (j : Nat) : st'.table d j = st.table d j := by
    unfold FsState.table
    rw [got.disk,got.sb]
  refine FsState.volume_ext got.sb.symm (congrFun got.disk d).symm (fun j h => ?_) (fun j h => ?_)
  · rw [got.sb] at h
    rw [FsState.volume_inode h]
    refine (FsState.dinode_congr unique (got.unique unique) (table j) ?_ ?_).symm
    · intro s locked number
      obtain ⟨same,inum⟩ := got.copy locked
      exact Or.inl ⟨(got.locked d s).mpr locked,inum.trans number,same⟩
    · intro s locked number
      have before := (got.locked d s).mp locked
      exact Or.inl ⟨before,(got.copy before).2.symm.trans number⟩
  · rw [got.sb] at h
    exact FsState.volume_rest h

end iget

end Lxos.Fs
