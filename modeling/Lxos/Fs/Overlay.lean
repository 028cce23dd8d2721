import Lxos.Fs.Scan

/-! Writes that follow one another. A write lays its bytes over the file and leaves every
other file alone; two of them, the second where the first ended, are one. -/
namespace Lxos.Fs
open Lxos.Bytes

/-- `n` bytes of `src` came to lie at `off` in the file of slot `ip`. No other file changed. -/
structure Overlaid (dev : Nat) (ip : Slot) (src : Buffer) (off n : Nat) (st st' : FsState) : Prop where
  calm : Calm st st'
  sb : st'.sb = st.sb
  sound : (st'.volume dev).Sound
  other : ∀ j, j ≠ (st.icache ip).inum → (st'.volume dev).inode j = (st.volume dev).inode j ∧
    (st'.volume dev).byte j = (st.volume dev).byte j
  attrs : ∃ addrs size, (st'.volume dev).inode (st.icache ip).inum =
    { (st.volume dev).inode (st.icache ip).inum with addrs := addrs,size := size }
  size : ((st'.volume dev).inode (st.icache ip).inum).size.toNat =
    max ((st.volume dev).inode (st.icache ip).inum).size.toNat (off + n)
  byte : ∀ o, (st'.volume dev).byte (st.icache ip).inum o =
    if off ≤ o ∧ o < off + n then src (o - off) else (st.volume dev).byte (st.icache ip).inum o

/-- The files of two states are the same. Where their blocks lie may differ. -/
def SameFiles (dev : Nat) (st st' : FsState) : Prop :=
  ∀ j, (∃ addrs, (st'.volume dev).inode j = { (st.volume dev).inode j with addrs := addrs }) ∧
    (st'.volume dev).byte j = (st.volume dev).byte j

section overlay
variable {dev off m n : Nat} {ip : Slot} {src src' : Buffer} {st st' st'' : FsState}

theorem Calm.named (calm : Calm st st') (sb : st'.sb = st.sb) (named : Named dev ip st) : Named dev ip st' := by
  refine ⟨calm.unique named.unique,?_,?_,?_⟩
  · rw [calm.ref]
    exact named.ref
  · rw [calm.dev]
    exact named.dev
  · rw [calm.inum,sb]
    exact named.place

/-- Nothing is written: the file may have got blocks. -/
theorem Grown.overlaid (grown : Grown dev ip st st')
    (within : off ≤ ((st.volume dev).inode (st.icache ip).inum).size.toNat) (src : Buffer) : Overlaid dev ip src off 0 st st' := by
  obtain ⟨addrs,attrs⟩ := grown.attrs
  refine ⟨grown.change.calm,grown.frame.sb,grown.sound,fun j away => ⟨grown.frame.other j away,congrFun grown.byte j⟩,
    ⟨addrs,_,attrs⟩,?_,fun o => ?_⟩
  · rw [attrs,Nat.add_zero]
    exact (max_eq_left within).symm
  · rw [if_neg (by omega),grown.byte]

theorem Patched.overlaid (patched : Patched dev ip src off n st st') : Overlaid dev ip src off n st st' :=
  ⟨patched.change.calm,patched.frame.sb,patched.sound,
    fun j away => ⟨patched.frame.other j away,patched.frame.byte j away⟩,patched.frame.attrs,patched.size,patched.byte⟩

theorem Overlaid.refl (sound : (st.volume dev).Sound)
    (within : off ≤ ((st.volume dev).inode (st.icache ip).inum).size.toNat) (src : Buffer) : Overlaid dev ip src off 0 st st := by
  refine ⟨Calm.refl st,rfl,sound,fun _ _ => ⟨rfl,rfl⟩,⟨_,_,rfl⟩,?_,fun o => ?_⟩
  · rw [Nat.add_zero]
    exact (max_eq_left within).symm
  · rw [if_neg (by omega)]

/-- Where nothing was written does not matter. -/
theorem Overlaid.move {o : Nat} (laid : Overlaid dev ip src off 0 st st')
    (within : o ≤ ((st.volume dev).inode (st.icache ip).inum).size.toNat)
    (start : off ≤ ((st.volume dev).inode (st.icache ip).inum).size.toNat) (src' : Buffer) : Overlaid dev ip src' o 0 st st' := by
  refine ⟨laid.calm,laid.sb,laid.sound,laid.other,laid.attrs,?_,fun i => ?_⟩
  · rw [laid.size,Nat.add_zero,Nat.add_zero,max_eq_left start,max_eq_left within]
  · rw [laid.byte,if_neg (by omega),if_neg (by omega)]

theorem ilock_overlaid (named : Named dev ip st) (sound : (st.volume dev).Sound)
    (within : off ≤ ((st.volume dev).inode (st.icache ip).inum).size.toNat) (src : Buffer) :
    Overlaid dev ip src off 0 st (ilock st ip) := by
  have loaded := ilock_loaded named
  have volume := loaded.volume named
  refine ⟨ilock_calm st ip,loaded.sb,volume ▸ sound,fun j _ => ⟨by rw [volume],by rw [volume]⟩,⟨_,_,by rw [volume]⟩,?_,fun o => ?_⟩
  · rw [volume,Nat.add_zero]
    exact (max_eq_left within).symm
  · rw [if_neg (by omega),volume]

theorem Overlaid.trans (first : Overlaid dev ip src off m st st')
    (second : Overlaid dev ip (fun i => src (m + i)) (off + m) n st' st'') : Overlaid dev ip src off (m + n) st st'' := by
  have inum := first.calm.inum ip
  obtain ⟨addrs1,size1,attrs1⟩ := first.attrs
  obtain ⟨addrs2,size2,attrs2⟩ := second.attrs
  have other := second.other
  have size := second.size
  have byte := second.byte
  rw [inum] at attrs2 other size byte
  refine ⟨first.calm.trans second.calm,second.sb.trans first.sb,second.sound,fun j away => ⟨?_,?_⟩,
    ⟨addrs2,size2,by rw [attrs2,attrs1]⟩,?_,fun o => ?_⟩
  · exact (other j away).1.trans (first.other j away).1
  · exact (other j away).2.trans (first.other j away).2
  · rw [size,first.size]
    omega
  · rw [byte,first.byte]
    by_cases late : off + m ≤ o ∧ o < off + m + n
    · rw [if_pos late,if_pos (by omega)]
      exact congrArg src (by omega)
    · rw [if_neg late]
      by_cases early : off ≤ o ∧ o < off + m
      · rw [if_pos early,if_pos (by omega)]
      · rw [if_neg early,if_neg (by omega)]

/-- What was written decides what the files are. -/
theorem Overlaid.same (left : Overlaid dev ip src off n st st') (right : Overlaid dev ip src' off n st st'')
    (equal : ∀ i < n, src i = src' i) : SameFiles dev st' st'' := by
  intro j
  by_cases here : j = (st.icache ip).inum
  · subst j
    obtain ⟨addrs,size,attrs⟩ := left.attrs
    obtain ⟨addrs',size',attrs'⟩ := right.attrs
    have lengths : size' = size := by
      have length := left.size
      have length' := right.size
      rw [attrs] at length
      rw [attrs'] at length'
      exact BitVec.eq_of_toNat_eq (length'.trans length.symm)
    refine ⟨⟨addrs',by rw [attrs,attrs',lengths]⟩,funext fun o => ?_⟩
    rw [left.byte,right.byte]
    split
    · exact (equal _ (by omega)).symm
    · rfl
  · exact ⟨⟨((st'.volume dev).inode j).addrs,by rw [(right.other j here).1,(left.other j here).1]⟩,
      (right.other j here).2.trans (left.other j here).2.symm⟩

theorem writei_overlaid (named : Named dev ip st) (sound : (st.volume dev).Sound)
    (regular : ((st.volume dev).inode (st.icache ip).inum).type ≠ tDev)
    (start : off ≤ ((st.volume dev).inode (st.icache ip).inum).size.toNat) (src : Buffer) (room : off + n ≤ 71680)
    (enough : (writei (ilock st ip) ip src off n).2.exhausted = false) :
    (writei (ilock st ip) ip src off n).1 = n ∧ Overlaid dev ip src off n st (writei (ilock st ip) ip src off n).2 := by
  have ready := ilock_ready named sound
  have lock := ilock_overlaid named sound start src
  have copy := FsState.volume_locked ready.unique ready.locked ready.place
  rw [(ilock_loaded named).volume named,lock.calm.inum] at copy
  rw [copy] at regular start
  obtain ⟨count,patched⟩ := writei_patched ready regular start room enough
  have whole := lock.trans (n := n) (m := 0) (by simpa using patched.overlaid)
  rw [Nat.zero_add] at whole
  exact ⟨count,whole⟩

theorem writei_over (named : Named dev ip st) (sound : (st.volume dev).Sound)
    (regular : ((st.volume dev).inode (st.icache ip).inum).type ≠ tDev) (src : Buffer) (width : n < 4294967296)
    (bad : 71680 < off + n) : writei (ilock st ip) ip src off n = (-1,ilock st ip) := by
  have ready := ilock_ready named sound
  have copy := FsState.volume_locked ready.unique ready.locked ready.place
  rw [(ilock_loaded named).volume named,(ilock_calm st ip).inum] at copy
  rw [copy] at regular
  exact writei_refused regular width (Or.inr bad)

theorem readi_overlaid (named : Named dev ip st) (sound : (st.volume dev).Sound)
    (regular : ((st.volume dev).inode (st.icache ip).inum).type ≠ tDev)
    (start : off ≤ ((st.volume dev).inode (st.icache ip).inum).size.toNat) (dst : Buffer) (width : off + n < 4294967296)
    (small : n < 2147483648) (enough : (readi (ilock st ip) ip dst off n).2.2.exhausted = false) :
    (readi (ilock st ip) ip dst off n).1 = (min n (((st.volume dev).inode (st.icache ip).inum).size.toNat - off) : Nat) ∧
      (∀ i < min n (((st.volume dev).inode (st.icache ip).inum).size.toNat - off),
        (readi (ilock st ip) ip dst off n).2.1 i = (st.volume dev).byte (st.icache ip).inum (off + i)) ∧
      Overlaid dev ip zeros off 0 st (readi (ilock st ip) ip dst off n).2.2 := by
  have ready := ilock_ready named sound
  have lock := ilock_overlaid named sound start zeros
  have volume := (ilock_loaded named).volume named
  obtain ⟨grown,value⟩ := readi_spec ready dst off n enough
  have laid := @Grown.overlaid _ off _ _ _ grown (by rw [volume,lock.calm.inum]; exact start) zeros
  rw [volume,lock.calm.inum] at value
  generalize (st.volume dev).inode (st.icache ip).inum = d at regular start value ⊢
  unfold readResult at value
  have amount : (if u32 (off + n) > d.size.toNat then d.size.toNat - off else n) = min n (d.size.toNat - off) := by
    rw [u32_of_lt width]
    split <;> omega
  rw [if_neg regular,if_neg (by rw [u32_of_lt width]; omega),amount] at value
  obtain ⟨count,bytes⟩ := Prod.mk.inj value
  refine ⟨by rw [count,int32_of_lt (by omega)],fun i low => ?_,?_⟩
  · have inside := @blit_inside dst (fun i => (st.volume dev).byte (st.icache ip).inum (off + i)) 0 _ i low
    rw [Nat.zero_add] at inside
    rw [bytes]
    exact inside
  · have whole := lock.trans (n := 0) (m := 0) (by simpa using laid)
    exact whole

end overlay

end Lxos.Fs
