import Lxos.Fs.BlockMap

/-! What `readi` returns and what `writei` changes, in terms of the bytes of the
volume. The loops are followed chunk by chunk; `bmap` may allocate in each. -/
namespace Lxos.Fs
open Lxos.Bytes

theorem blit_congr {b f g : Buffer} {o n : Nat} (same : ∀ i < n, f i = g i) : blit b o n f = blit b o n g := by
  funext i
  by_cases inside : o ≤ i ∧ i < o + n
  · simp only [blit,inside,and_self,if_true]
    exact same _ (by omega)
  · simp only [blit,inside,if_false]

section read
variable {dev : Nat} {ip : Slot} {st : FsState}

/-- The part of a chunk that `bmap`'s block holds. -/
theorem chunk_bytes {v : Volume} {k off m : Nat} (fits : off % 512 + m ≤ 512)
    (present : v.addr k (off / 512) ≠ 0) {i : Nat} (h : i < m) :
    v.block (v.addr k (off / 512)) (off % 512 + i) = v.byte k (off + i) := by
  have quotient : (off + i) / 512 = off / 512 := by omega
  have remainder : (off + i) % 512 = off % 512 + i := by omega
  rw [Volume.byte,quotient,if_neg present,remainder]

theorem readiLoop_spec (ready : Ready dev ip st) (n fuel : Nat) (dst : Buffer) (tot off : Nat)
    (enough : n ≤ tot + fuel)
    (free : (readiLoop ip n fuel st dst tot off).2.exhausted = false) :
    Grown dev ip st (readiLoop ip n fuel st dst tot off).2 ∧
      (readiLoop ip n fuel st dst tot off).1 =
        blit dst tot (n - tot) (fun i => (st.volume dev).byte (st.icache ip).inum (off + i)) := by
  induction fuel generalizing st dst tot off with
  | zero =>
    have done : n - tot = 0 := by omega
    rw [done,blit_zero]
    exact ⟨Grown.refl ready,rfl⟩
  | succ fuel ih =>
    unfold readiLoop at free ⊢
    by_cases more : tot < n
    · simp only [more,if_true,ready.locked.2.1,bsize] at free ⊢
      have first := bmap_addr ready (off / 512)
      generalize bmap st ip (off / 512) = r at free first ⊢
      obtain ⟨a,st1⟩ := r
      simp only [bread_disk] at free first ⊢
      generalize chunk : min (n - tot) (512 - off % 512) = m at free ⊢
      have io := (emit_io st1 (.bread dev a)).trans (emit_io _ (.brelse dev a))
      have later := readiLoop_mapped ip n fuel (brelse (bread st1 dev a) dev a)
        (blit dst tot m (fun i => st1.disk dev a (off % 512 + i))) (tot + m) (off + m)
      obtain ⟨grown,value,nonzero⟩ := first (exhausted_of_suffix (io.trace.trans later.trace) free)
      have ready1 := grown.ready ready
      have step : Grown dev ip st1 (brelse (bread st1 dev a) dev a) :=
        Grown.quiet ready1 (io.toLocal ip) rfl
      obtain ⟨rest,bytes⟩ := ih (step.ready ready1)
        (blit dst tot m (fun i => st1.disk dev a (off % 512 + i))) (tot + m) (off + m) (by omega) free
      have inum := grown.change.inum ip
      have data (i : Nat) (h : i < m) : st1.disk dev a (off % 512 + i) =
          (st.volume dev).byte (st.icache ip).inum (off + i) := by
        rw [← grown.byte,← chunk_bytes (m := m) (by omega) (by rw [← value]; exact nonzero) h,← value]
        rfl
      refine ⟨(grown.trans step).trans rest,?_⟩
      have same : (brelse (bread st1 dev a) dev a).volume dev = st1.volume dev := rfl
      have number : ((brelse (bread st1 dev a) dev a).icache ip).inum = (st.icache ip).inum := inum
      have total : m + (n - (tot + m)) = n - tot := by omega
      rw [bytes,same,number,grown.byte,blit_congr data,← total,← blit_append]
      simp only [Nat.add_assoc]
    · have done : n - tot = 0 := by omega
      rw [done,blit_zero]
      simp only [more,if_false]
      exact ⟨Grown.refl ready,trivial⟩

/-- What reading `n` bytes at `off` gives, for an inode and the bytes of its file. -/
def readResult (d : Dinode) (byte : Nat → Byte) (dst : Buffer) (off n : Nat) : Int × Buffer :=
  if d.type = tDev then (-1,dst)
  else if off > d.size.toNat ∨ u32 (off + n) < off then (-1,dst)
  else
    let n := if u32 (off + n) > d.size.toNat then d.size.toNat - off else n
    (int32 n,blit dst 0 n (fun i => byte (off + i)))

/-- Reading depends on the volume only, and allocates at most. -/
theorem readi_spec (ready : Ready dev ip st) (dst : Buffer) (off n : Nat)
    (free : (readi st ip dst off n).2.2.exhausted = false) :
    Grown dev ip st (readi st ip dst off n).2.2 ∧
      ((readi st ip dst off n).1,(readi st ip dst off n).2.1) =
        readResult ((st.volume dev).inode (st.icache ip).inum)
          ((st.volume dev).byte (st.icache ip).inum) dst off n := by
  have copy := FsState.volume_locked ready.unique ready.locked ready.place
  unfold readResult
  rw [copy]
  unfold readi at free ⊢
  by_cases device : (st.icache ip).type = tDev
  · simp only [device,if_true,devsw,ite_self] at free ⊢
    exact ⟨Grown.refl ready,trivial⟩
  · simp only [device,if_false] at free ⊢
    by_cases refused : off > (st.icache ip).size.toNat ∨ u32 (off + n) < off
    · simp only [refused,if_true] at free ⊢
      exact ⟨Grown.refl ready,trivial⟩
    · simp only [refused,if_false] at free ⊢
      obtain ⟨grown,bytes⟩ := readiLoop_spec ready _ _ dst 0 off (by omega) free
      refine ⟨grown,?_⟩
      rw [bytes,Nat.sub_zero]

theorem Ready.idle {st' : FsState} (ready : Ready dev ip st) (idle : Idle st st') : Ready dev ip st' := by
  have io : DiskOnly st st' := ⟨idle.icache,idle.stack,idle.trace⟩
  exact ready.step (io.toLocal ip) idle.sb (idle.volume ▸ ready.sound)

theorem readiLoop_present (ready : Ready dev ip st) (n fuel : Nat) (dst : Buffer) (tot off : Nat) (enough : n ≤ tot + fuel)
    (present : ∀ bn, off / 512 ≤ bn → bn * 512 < off + (n - tot) →
      bn < 140 ∧ (st.volume dev).ref ((st.icache ip).inum,bn) ≠ 0) :
    Idle st (readiLoop ip n fuel st dst tot off).2 ∧ (readiLoop ip n fuel st dst tot off).1 =
      blit dst tot (n - tot) (fun i => (st.volume dev).byte (st.icache ip).inum (off + i)) := by
  induction fuel generalizing st dst tot off with
  | zero =>
    have done : n - tot = 0 := by omega
    rw [done,blit_zero]
    exact ⟨Idle.refl st,rfl⟩
  | succ fuel ih =>
    unfold readiLoop
    by_cases more : tot < n
    · simp only [more,if_true,ready.locked.2.1,bsize]
      obtain ⟨index,there⟩ := present (off / 512) (le_refl _) (by omega)
      obtain ⟨idle,value⟩ := bmap_present ready index there
      generalize bmap st ip (off / 512) = r at idle value ⊢
      obtain ⟨a,st1⟩ := r
      dsimp only [bread_disk] at idle value ⊢
      generalize chunk : min (n - tot) (512 - off % 512) = m
      have step := (idle.trans (bread_idle _ dev a)).trans (brelse_idle _ dev a)
      obtain ⟨rest,bytes⟩ := @ih _ (ready.idle step) (blit dst tot m (fun i => st1.disk dev a (off % 512 + i))) (tot + m)
        (off + m) (by omega) (fun bn low high => by
          rw [step.volume,step.icache]
          exact present bn (by omega) (by omega))
      refine ⟨step.trans rest,?_⟩
      have address : (st.volume dev).addr (st.icache ip).inum (off / 512) = a := by
        rw [Volume.addr,if_pos index,value]
      have data (i : Nat) (h : i < m) : st1.disk dev a (off % 512 + i) =
          (st.volume dev).byte (st.icache ip).inum (off + i) := by
        rw [← chunk_bytes (m := m) (by omega) (by rw [address,value]; exact there) h,address,idle.disk]
        rfl
      have total : m + (n - (tot + m)) = n - tot := by omega
      rw [bytes,step.volume,step.icache,blit_congr data,← total,← blit_append]
      simp only [Nat.add_assoc]
    · have done : n - tot = 0 := by omega
      rw [done,blit_zero]
      simp only [more,if_false]
      exact ⟨Idle.refl st,trivial⟩

theorem readi_present (ready : Ready dev ip st) (dst : Buffer) (off : Nat) {n : Nat} (width : n < 4294967296)
    (present : ∀ bn, off / 512 ≤ bn → bn * 512 < min (off + n) (st.icache ip).size.toNat →
      bn < 140 ∧ (st.volume dev).ref ((st.icache ip).inum,bn) ≠ 0) :
    Idle st (readi st ip dst off n).2.2 ∧ ((readi st ip dst off n).1,(readi st ip dst off n).2.1) =
      readResult ((st.volume dev).inode (st.icache ip).inum) ((st.volume dev).byte (st.icache ip).inum) dst off n := by
  have copy := FsState.volume_locked ready.unique ready.locked ready.place
  have stay := Idle.refl st
  unfold readResult
  rw [copy]
  unfold readi
  by_cases device : (st.icache ip).type = tDev
  · simp only [device,if_true,devsw,ite_self]
    exact ⟨stay,trivial⟩
  · simp only [device,if_false]
    by_cases refused : off > (st.icache ip).size.toNat ∨ u32 (off + n) < off
    · simp only [refused,if_true]
      exact ⟨stay,trivial⟩
    · simp only [refused,if_false]
      obtain ⟨inside,wrap⟩ := not_or.mp refused
      generalize amount : (if u32 (off + n) > (st.icache ip).size.toNat then (st.icache ip).size.toNat - off else n) = m
      obtain ⟨idle,bytes⟩ := readiLoop_present ready m m dst 0 off (by omega) (fun bn low high => by
        refine present bn low (lt_min ?_ ?_)
        all_goals
          unfold u32 at *
          split at amount <;> omega)
      rw [bytes,Nat.sub_zero]
      exact ⟨idle,rfl⟩

/-- A file without holes is read without allocating. -/
theorem readi_filled (ready : Ready dev ip st) (filled : (st.volume dev).Filled (st.icache ip).inum)
    (dst : Buffer) (off : Nat) {n : Nat} (width : n < 4294967296) :
    Idle st (readi st ip dst off n).2.2 ∧ ((readi st ip dst off n).1,(readi st ip dst off n).2.1) =
      readResult ((st.volume dev).inode (st.icache ip).inum) ((st.volume dev).byte (st.icache ip).inum) dst off n := by
  have copy := FsState.volume_locked ready.unique ready.locked ready.place
  unfold Volume.Filled at filled
  rw [copy] at filled
  exact readi_present ready dst off width (fun bn _ high => filled bn (lt_min_iff.mp high).2)

theorem readi_idle (ready : Ready dev ip st) (filled : (st.volume dev).Filled (st.icache ip).inum)
    (dst : Buffer) (off : Nat) {n : Nat} (width : n < 4294967296) : Idle st (readi st ip dst off n).2.2 :=
  (readi_filled ready filled dst off width).1

end read

section write
variable {dev : Nat} {ip : Slot} {st st' st'' : FsState}

/-- `n` bytes of `src` were written at `off` to the file in slot `ip`, whose
size is not yet adjusted. -/
structure Written (dev : Nat) (ip : Slot) (src : Buffer) (off n : Nat) (st st' : FsState) : Prop where
  change : Local ip st st'
  sound : (st'.volume dev).Sound
  frame : Volume.Frame (st.volume dev).marked (st'.volume dev).marked (st.icache ip).inum
    (st.volume dev) (st'.volume dev)
  attrs : ∃ addrs, (st'.volume dev).inode (st.icache ip).inum =
    { (st.volume dev).inode (st.icache ip).inum with addrs := addrs }
  byte : ∀ o, (st'.volume dev).byte (st.icache ip).inum o =
    if off ≤ o ∧ o < off + n then src (o - off) else (st.volume dev).byte (st.icache ip).inum o
  present : ∀ bn, off / 512 ≤ bn → bn * 512 < off + n → 0 < n →
    (st'.volume dev).ref ((st.icache ip).inum,bn) ≠ 0
  table : ∀ c < st.sb.bmapstart, st'.disk dev c = st.disk dev c
  quiet : (∀ bn, off / 512 ≤ bn → bn * 512 < off + n → 0 < n →
    (st.volume dev).ref ((st.icache ip).inum,bn) ≠ 0) → st'.icache = st.icache

theorem Written.ready {src : Buffer} {off n : Nat} (written : Written dev ip src off n st st')
    (ready : Ready dev ip st) : Ready dev ip st' :=
  ready.step written.change written.frame.sb written.sound

theorem Written.nil (ready : Ready dev ip st) (src : Buffer) (off : Nat) : Written dev ip src off 0 st st where
  change := Local.refl ip st
  sound := ready.sound
  frame := Volume.Frame.refl _ _ _
  attrs := ⟨_,rfl⟩
  byte := fun o => (if_neg (by omega)).symm
  present := fun _ _ _ h => by omega
  table := fun _ _ => rfl
  quiet := fun _ => rfl

/-- One chunk, within one block. -/
theorem Written.chunk (ready : Ready dev ip st) (grown : Grown dev ip st st') {src : Buffer} {off m : Nat}
    (fits : off % 512 + m ≤ 512) (index : off / 512 < 140) (some : 0 < m)
    (present : (st'.volume dev).ref ((st.icache ip).inum,off / 512) ≠ 0)
    (still : (st.volume dev).ref ((st.icache ip).inum,off / 512) ≠ 0 → st'.icache = st.icache) :
    let a := (st'.volume dev).ref ((st.icache ip).inum,off / 512)
    Written dev ip src off m st
      (brelse (bwrite (bread st' dev a) dev a (blit (st'.disk dev a) (off % 512) m src)) dev a) := by
  intro a
  have ready' := grown.ready ready
  have range := ready'.sound.range _ present
  have low : (bread st' dev a).sb.bmapstart ≤ a := by
    have := range.1
    rw [Superblock.nmeta_eq] at this
    exact Nat.le_trans (Nat.le_add_right _ _) this
  have volume : (brelse (bwrite (bread st' dev a) dev a (blit (st'.disk dev a) (off % 512) m src)) dev a).volume dev =
      (st'.volume dev).setBlock a (blit (st'.disk dev a) (off % 512) m src) :=
    @FsState.volume_bwrite (bread st' dev a) dev ready'.sound.layout _ low _
  have io := ((emit_io st' (.bread dev a)).trans (bwrite_io _ dev a
    (blit (st'.disk dev a) (off % 512) m src))).trans (emit_io _ (.brelse dev a))
  have same (c : Nat) (h : c < (st'.volume dev).sb.size) :
      ((st'.volume dev).setBlock a (blit (st'.disk dev a) (off % 512) m src)).marked c ↔
        (st'.volume dev).marked c := Volume.store_marked ready'.sound present h
  refine ⟨grown.change.trans (io.toLocal ip),?_,?_,by rw [volume]; exact grown.attrs,?_,?_,?_,?_⟩
  · rw [volume]
    exact (Volume.store_owned ready'.sound index).congr (fun c h => (same c h).symm)
  · rw [volume]
    exact grown.frame.trans (Volume.store_frame ready'.sound index present same)
  · intro o
    rw [volume,Volume.store_byte ready'.sound index present,grown.byte]
    by_cases inside : off ≤ o ∧ o < off + m
    · have block : o / 512 = off / 512 := by omega
      have place : o % 512 = off % 512 + (o - off) := by omega
      rw [if_pos ⟨rfl,block⟩,if_pos inside,place,blit_inside (by omega)]
    · rw [if_neg inside]
      by_cases block : o / 512 = off / 512
      · rw [if_pos ⟨rfl,block⟩,blit_outside (by omega),← grown.byte,Volume.byte,Volume.addr,block,
          if_pos index,if_neg present]
        rfl
      · rw [if_neg (fun h => block h.2)]
  · intro bn first last _
    have only : bn = off / 512 := by omega
    rw [volume,Volume.store_ref ready'.sound index,only]
    exact present
  · intro c h
    have same : st'.sb = st.sb := grown.frame.sb
    have apart : c ≠ a := by
      change st'.sb.bmapstart ≤ a at low
      rw [same] at low
      omega
    rw [brelse_disk,bwrite_other _ _ _ _ (Or.inr apart)]
    exact grown.table c h
  · intro there
    exact still (there _ (le_refl _) (by omega) some)

theorem Written.append {src : Buffer} {off m n : Nat} (first : Written dev ip src off m st st')
    (second : Written dev ip (fun i => src (m + i)) (off + m) n st' st'') (some : 0 < m) :
    Written dev ip src off (m + n) st st'' := by
  have inum := first.change.inum ip
  have sb : st'.sb = st.sb := first.frame.sb
  obtain ⟨change,sound,frame,⟨a,ha⟩,byte,present,table,quiet⟩ := second
  obtain ⟨b,hb⟩ := first.attrs
  rw [inum] at frame byte present ha quiet
  rw [sb] at table
  refine ⟨first.change.trans change,sound,first.frame.trans frame,⟨a,by rw [ha,hb]⟩,?_,?_,?_,?_⟩
  · intro o
    rw [byte,first.byte]
    by_cases late : off + m ≤ o ∧ o < off + m + n
    · have index : m + (o - (off + m)) = o - off := by omega
      have inside : off ≤ o ∧ o < off + (m + n) := by omega
      rw [if_pos late,if_pos inside,index]
    · rw [if_neg late]
      by_cases early : off ≤ o ∧ o < off + m
      · have inside : off ≤ o ∧ o < off + (m + n) := by omega
        rw [if_pos early,if_pos inside]
      · have outside : ¬(off ≤ o ∧ o < off + (m + n)) := by omega
        rw [if_neg early,if_neg outside]
  · intro bn low high _
    by_cases early : bn * 512 < off + m
    · have there := first.present bn low early some
      rw [frame.keep _ there]
      exact there
    · exact present bn (by omega) (by omega) (by omega)
  · exact fun c h => (table c h).trans (first.table c h)
  · intro there
    refine (quiet fun bn low high _ => ?_).trans (first.quiet fun bn low high _ => ?_)
    · have before := there bn (by omega) (by omega) (by omega)
      rw [first.frame.keep _ before]
      exact before
    · exact there bn low (by omega) (by omega)

theorem writeiLoop_spec (ready : Ready dev ip st) (src : Buffer) (n fuel : Nat) (tot off : Nat)
    (enough : n ≤ tot + fuel) (room : off + (n - tot) ≤ 71680)
    (free : (writeiLoop ip src n fuel st tot off).2.exhausted = false) :
    Written dev ip (fun i => src (tot + i)) off (n - tot) st (writeiLoop ip src n fuel st tot off).2 ∧
      (writeiLoop ip src n fuel st tot off).1 = off + (n - tot) := by
  induction fuel generalizing st tot off with
  | zero =>
    have done : n - tot = 0 := by omega
    rw [done]
    exact ⟨Written.nil ready _ _,rfl⟩
  | succ fuel ih =>
    unfold writeiLoop at free ⊢
    by_cases more : tot < n
    · have index : off / 512 < 140 := by omega
      simp only [more,if_true,ready.locked.2.1,bsize] at free ⊢
      have first := bmap_spec ready index
      have still := fun there => (bmap_present ready index there).1.icache
      generalize bmap st ip (off / 512) = r at free first still ⊢
      obtain ⟨a,st1⟩ := r
      simp only [bread_disk] at free first still ⊢
      generalize chunk : min (n - tot) (512 - off % 512) = m at free ⊢
      generalize data : blit (st1.disk dev a) (off % 512) m (fun i => src (tot + i)) = block at free ⊢
      have io := ((emit_io st1 (.bread dev a)).trans (bwrite_io _ dev a block)).trans
        (emit_io _ (.brelse dev a))
      have later := writeiLoop_local ip src n fuel (brelse (bwrite (bread st1 dev a) dev a block) dev a)
        (tot + m) (off + m)
      obtain ⟨grown,value,nonzero⟩ := first (exhausted_of_suffix (io.trace.trans later.trace) free)
      have step := @Written.chunk dev ip st st1 ready grown (fun i => src (tot + i)) off m
        (by omega) index (by omega) (by rw [value]; exact nonzero) still
      rw [value] at step
      dsimp only at step
      rw [data] at step
      obtain ⟨rest,last⟩ := ih (step.ready ready) (tot + m) (off + m) (by omega) (by omega) free
      have total : m + (n - (tot + m)) = n - tot := by omega
      refine ⟨?_,by rw [last]; omega⟩
      rw [← total]
      simp only [Nat.add_assoc] at rest
      exact step.append rest (by omega)
    · have done : n - tot = 0 := by omega
      rw [done]
      simp only [more,if_false]
      exact ⟨Written.nil ready _ _,rfl⟩

end write

/-! `iupdate` stores the copy in the slot; the volume, which reads the copy, stays. -/
section update
variable {dev : Nat} {ip : Slot} {st : FsState}

theorem iupdate_volume (ready : Ready dev ip st) : (iupdate st ip).volume dev =
    (st.volume dev).setBlock (st.sb.iblock (st.icache ip).inum)
      ((st.icache ip).encode (st.disk dev (st.sb.iblock (st.icache ip).inum))
        (inodeOffset (st.icache ip).inum)) := by
  have disk : (iupdate st ip).disk dev = Function.update (st.disk dev) (st.sb.iblock (st.icache ip).inum)
      ((st.icache ip).encode (st.disk dev (st.sb.iblock (st.icache ip).inum))
        (inodeOffset (st.icache ip).inum)) := by
    simp only [iupdate,ready.locked.2.1]
    exact bwrite_disk _ _ _ _
  refine FsState.volume_ext rfl disk.symm (fun k h => ?_) (fun k h => FsState.volume_rest h)
  refine (@FsState.volume_inode st dev k h).trans ?_
  have cached : (iupdate st ip).cached dev k = st.cached dev k := rfl
  simp only [FsState.dinode,cached]
  cases found : st.cached dev k with
  | some s => rfl
  | none =>
    have distinct : k ≠ (st.icache ip).inum := by
      rintro rfl
      rw [FsState.cached_locked ready.unique ready.locked] at found
      exact absurd found (by simp)
    exact (FsState.table_other ready.sound.layout (by rfl) h ready.place distinct _ disk).symm

theorem iupdate_table (ready : Ready dev ip st) :
    (iupdate st ip).table dev (st.icache ip).inum = (st.icache ip).toDinode := by
  simp only [FsState.table,iupdate,ready.locked.2.1,brelse_disk,brelse_sb,bread_disk,bwrite_sb,
    bread_sb,bwrite_same]
  exact Dinode.decode_encode _ _ _

theorem iupdate_sound (ready : Ready dev ip st) : ((iupdate st ip).volume dev).Sound := by
  have low := (ready.sound.layout.iblock_range ready.place).2
  rw [iupdate_volume ready]
  exact (Volume.table_owned ready.sound low).congr
    (fun c h => (Volume.table_marked ready.sound.layout low h).symm)

theorem iupdate_byte (ready : Ready dev ip st) : ((iupdate st ip).volume dev).byte = (st.volume dev).byte := by
  have low : st.sb.iblock (st.icache ip).inum < st.sb.bmapstart :=
    (ready.sound.layout.iblock_range ready.place).2
  rw [iupdate_volume ready]
  exact Volume.table_byte ready.sound low

theorem iupdate_frame (ready : Ready dev ip st) : Volume.Frame (st.volume dev).marked
    ((iupdate st ip).volume dev).marked (st.icache ip).inum (st.volume dev) ((iupdate st ip).volume dev) := by
  have low : st.sb.iblock (st.icache ip).inum < st.sb.bmapstart :=
    (ready.sound.layout.iblock_range ready.place).2
  have ref (data : Block) : ((st.volume dev).setBlock (st.sb.iblock (st.icache ip).inum) data).ref =
      (st.volume dev).ref := Volume.table_ref ready.sound low
  have byte := iupdate_byte ready
  rw [iupdate_volume ready] at byte ⊢
  refine ⟨rfl,fun _ _ => rfl,⟨_,_,rfl⟩,?_,fun p _ => by rw [ref],fun p _ => by rw [ref],?_,?_,?_,?_⟩
  · intro c h o away
    by_cases here : c = st.sb.iblock (st.icache ip).inum
    · rw [here]
      refine (congrFun (Function.update_self _ _ _) o).trans (Dinode.encode_outside _ _ _ _ ?_)
      have outside : ¬((st.icache ip).inum % 8 * 64 ≤ o ∧ o < (st.icache ip).inum % 8 * 64 + 64) :=
        fun inside => away ⟨here,inside⟩
      change o < (st.icache ip).inum % 8 * 64 ∨ (st.icache ip).inum % 8 * 64 + 64 ≤ o
      omega
    · exact congrFun (Function.update_of_ne here _ _) o
  · intro j _
    rw [byte]
  · intro j _ there
    have range := (ready.sound.range _ there).1
    have high : st.sb.bmapstart ≤ (st.volume dev).sb.nmeta := Nat.le_add_right _ _
    exact Function.update_of_ne (by omega) _ _
  · exact fun c h used => (Volume.table_marked ready.sound.layout low h).mpr used
  · exact fun c h used => Or.inl ((Volume.table_marked ready.sound.layout low h).mp used)

/-- A new size for the inode in the slot, not yet stored. -/
theorem resize_volume (ready : Ready dev ip st) (size : BitVec 32) :
    (st.setDinode ip { (st.icache ip).toDinode with size := size }).volume dev =
      (st.volume dev).setInode (st.icache ip).inum
        { (st.volume dev).inode (st.icache ip).inum with size := size } := by
  rw [FsState.volume_setDinode ready.unique ready.locked ready.place,
    FsState.volume_locked ready.unique ready.locked ready.place]

theorem resize_byte (ready : Ready dev ip st) (size : BitVec 32) :
    ((st.setDinode ip { (st.icache ip).toDinode with size := size }).volume dev).byte =
      (st.volume dev).byte := by
  rw [resize_volume ready]
  exact Volume.setInode_byte rfl

theorem resize_ready (ready : Ready dev ip st) (size : BitVec 32) :
    Ready dev ip (st.setDinode ip { (st.icache ip).toDinode with size := size }) := by
  refine ready.step (setDinode_local st ip _) rfl ?_
  rw [resize_volume ready]
  exact Volume.setInode_owned ready.sound rfl

theorem resize_frame (v : Volume) (k : Nat) (size : BitVec 32) :
    Volume.Frame v.marked (v.setInode k { v.inode k with size := size }).marked k v
      (v.setInode k { v.inode k with size := size }) := by
  have addrs : ({ v.inode k with size := size } : Dinode).addrs = (v.inode k).addrs := rfl
  refine ⟨rfl,fun j away => Function.update_of_ne away _ _,⟨_,_,Function.update_self _ _ _⟩,
    fun _ _ _ _ => rfl,?_,?_,?_,fun _ _ _ => rfl,fun _ _ used => used,fun _ _ used => Or.inl used⟩
  · intro p _
    rw [Volume.setInode_ref addrs]
  · intro p _
    rw [Volume.setInode_ref addrs]
  · intro j _
    rw [Volume.setInode_byte addrs]

end update

section result
variable {dev : Nat} {ip : Slot} {st st' : FsState} {src : Buffer} {off n : Nat}

/-- A successful `writei`. The last field is about the disk: a dinode that was
up to date stays so. -/
structure Wrote (dev : Nat) (ip : Slot) (src : Buffer) (off n : Nat) (st st' : FsState) : Prop where
  change : Local ip st st'
  sound : (st'.volume dev).Sound
  frame : Volume.Frame (st.volume dev).marked (st'.volume dev).marked (st.icache ip).inum
    (st.volume dev) (st'.volume dev)
  size : ((st'.volume dev).inode (st.icache ip).inum).size.toNat =
    max ((st.volume dev).inode (st.icache ip).inum).size.toNat (off + n)
  byte : ∀ o, (st'.volume dev).byte (st.icache ip).inum o =
    if off ≤ o ∧ o < off + n then src (o - off) else (st.volume dev).byte (st.icache ip).inum o
  filled : (st'.volume dev).Filled (st.icache ip).inum
  saved : st.table dev (st.icache ip).inum = (st.icache ip).toDinode →
    st'.table dev (st.icache ip).inum = (st'.icache ip).toDinode

theorem Wrote.ready (wrote : Wrote dev ip src off n st st') (ready : Ready dev ip st) : Ready dev ip st' :=
  ready.step wrote.change wrote.frame.sb wrote.sound

/-- The file within its size: no allocation, hence no change of the dinode. -/
theorem Written.wrote_inside (written : Written dev ip src off n st st') (ready : Ready dev ip st)
    (filled : (st.volume dev).Filled (st.icache ip).inum)
    (inside : off + n ≤ (st.icache ip).size.toNat) : Wrote dev ip src off n st st' := by
  obtain ⟨addrs,attrs⟩ := written.attrs
  have copy := FsState.volume_locked ready.unique ready.locked ready.place
  have there : st'.icache = st.icache := by
    refine written.quiet (fun bn _ high _ => (filled bn ?_).2)
    rw [copy]
    exact Nat.lt_of_lt_of_le high inside
  refine ⟨written.change,written.sound,written.frame,?_,written.byte,?_,?_⟩
  · rw [attrs,copy]
    exact (max_eq_left inside).symm
  · intro bn low
    rw [attrs] at low
    have old := filled bn low
    exact ⟨old.1,by rw [written.frame.keep _ old.2]; exact old.2⟩
  · intro saved
    have block := written.table _ (ready.sound.layout.iblock_range ready.place).2
    have sb : st'.sb = st.sb := written.frame.sb
    rw [there,← saved]
    unfold FsState.table
    rw [sb]
    exact congrArg (Dinode.decode · _) block

/-- `n` bytes of `src` are at `off` in the file, which may have holes elsewhere. -/
structure Patched (dev : Nat) (ip : Slot) (src : Buffer) (off n : Nat) (st st' : FsState) : Prop where
  change : Local ip st st'
  sound : (st'.volume dev).Sound
  frame : Volume.Frame (st.volume dev).marked (st'.volume dev).marked (st.icache ip).inum
    (st.volume dev) (st'.volume dev)
  size : ((st'.volume dev).inode (st.icache ip).inum).size.toNat =
    max ((st.volume dev).inode (st.icache ip).inum).size.toNat (off + n)
  byte : ∀ o, (st'.volume dev).byte (st.icache ip).inum o =
    if off ≤ o ∧ o < off + n then src (o - off) else (st.volume dev).byte (st.icache ip).inum o

theorem Written.patched_inside (written : Written dev ip src off n st st') (ready : Ready dev ip st)
    (inside : off + n ≤ (st.icache ip).size.toNat) : Patched dev ip src off n st st' := by
  obtain ⟨addrs,attrs⟩ := written.attrs
  have copy := FsState.volume_locked ready.unique ready.locked ready.place
  refine ⟨written.change,written.sound,written.frame,?_,written.byte⟩
  rw [attrs,copy]
  exact (max_eq_left inside).symm

/-- Past its size the file grows, and the dinode is stored. -/
theorem Written.patched_grown (written : Written dev ip src off n st st') (ready : Ready dev ip st)
    (grown : (st.icache ip).size.toNat < off + n) (room : off + n ≤ 71680) :
    let st2 := iupdate (st'.setDinode ip { (st'.icache ip).toDinode with size := BitVec.ofNat 32 (off + n) }) ip
    Patched dev ip src off n st st2 ∧ st2.table dev (st.icache ip).inum = (st2.icache ip).toDinode ∧
      ∀ p, (st'.volume dev).ref p ≠ 0 → (st2.volume dev).ref p ≠ 0 := by
  obtain ⟨addrs,attrs⟩ := written.attrs
  have copy := FsState.volume_locked ready.unique ready.locked ready.place
  have ready1 := written.ready ready
  have ready2 := resize_ready ready1 (BitVec.ofNat 32 (off + n))
  have resized := resize_volume ready1 (BitVec.ofNat 32 (off + n))
  have inum := written.change.inum ip
  have frame1 := resize_frame (st'.volume dev) (st'.icache ip).inum (BitVec.ofNat 32 (off + n))
  have frame2 := iupdate_frame ready2
  have stored := iupdate_volume ready2
  have saved := iupdate_table ready2
  have bytes := (iupdate_byte ready2).trans (resize_byte ready1 (BitVec.ofNat 32 (off + n)))
  rw [← resized] at frame1
  generalize middle : st'.setDinode ip { (st'.icache ip).toDinode with size := BitVec.ofNat 32 (off + n) } =
    st2 at *
  have number : (st2.icache ip).inum = (st.icache ip).inum := by
    rw [← middle,FsState.setDinode_same]
    exact inum
  have step : Local ip st' st2 := middle ▸ setDinode_local st' ip _
  rw [inum] at frame1 resized
  rw [number] at frame2 stored saved
  have frame : Volume.Frame (st'.volume dev).marked ((iupdate st2 ip).volume dev).marked
      (st.icache ip).inum (st'.volume dev) ((iupdate st2 ip).volume dev) := frame1.trans frame2
  have inode : ((iupdate st2 ip).volume dev).inode (st.icache ip).inum =
      { (st.icache ip).toDinode with addrs := addrs,size := BitVec.ofNat 32 (off + n) } := by
    rw [stored,resized,attrs,copy]
    exact Function.update_self _ _ _
  refine ⟨⟨(written.change.trans step).trans ((iupdate_io _ _).toLocal ip),iupdate_sound ready2,
    written.frame.trans frame,?_,fun o => ?_⟩,saved,fun p there => ?_⟩
  · rw [inode,copy,BitVec.toNat_ofNat,max_eq_right (le_of_lt grown)]
    exact Nat.mod_eq_of_lt (by omega)
  · rw [bytes]
    exact written.byte o
  · rw [frame.keep p there]
    exact there

theorem Written.wrote_grown (written : Written dev ip src off n st st') (ready : Ready dev ip st)
    (filled : (st.volume dev).Filled (st.icache ip).inum)
    (start : off ≤ (st.icache ip).size.toNat) (grown : (st.icache ip).size.toNat < off + n)
    (room : off + n ≤ 71680) : Wrote dev ip src off n st (iupdate
      (st'.setDinode ip { (st'.icache ip).toDinode with size := BitVec.ofNat 32 (off + n) }) ip) := by
  have copy := FsState.volume_locked ready.unique ready.locked ready.place
  obtain ⟨patched,saved,still⟩ := written.patched_grown ready grown room
  refine ⟨patched.change,patched.sound,patched.frame,patched.size,patched.byte,fun bn less => ?_,fun _ => saved⟩
  rw [patched.size,copy,max_eq_right (le_of_lt grown)] at less
  refine ⟨by omega,still _ ?_⟩
  by_cases before : bn < off / 512
  · have old := (filled bn (by rw [copy]; omega)).2
    rw [written.frame.keep _ old]
    exact old
  · exact written.present bn (by omega) less (by omega)

/-- What is read from a device or written to it does not go through the disk. -/
theorem readi_device {dst : Buffer} (device : (st.icache ip).type = tDev) : (readi st ip dst off n).2.2 = st := by
  unfold readi
  dsimp only
  rw [if_pos device]
  split
  · rfl
  · rfl

theorem writei_device (device : (st.icache ip).type = tDev) : (writei st ip src off n).2 = st := by
  unfold writei
  dsimp only
  rw [if_pos device]
  split
  · rfl
  · split
    · rfl
    · rfl

/-- The console takes whatever it is given, and no other device takes anything. -/
theorem writei_answer (device : (st.icache ip).type = tDev) :
    (writei st ip src off n).1 = if (st.icache ip).major = 1 then int32 n else -1 := by
  unfold writei devsw
  dsimp only
  rw [if_pos device]
  by_cases screen : (st.icache ip).major = 1
  · rw [screen]
    rfl
  · have other : (st.icache ip).major.toNat ≠ console := fun same => screen (BitVec.eq_of_toNat_eq same)
    rw [if_neg screen,if_neg other]
    split
    · rfl
    · rfl

/-- `writei` refuses a write that starts past the end or ends past the largest file. -/
theorem writei_refused (regular : (st.icache ip).type ≠ tDev) (width : n < 4294967296)
    (bad : off > (st.icache ip).size.toNat ∨ 71680 < off + n) : writei st ip src off n = (-1,st) := by
  unfold writei
  simp only [regular,if_false,maxfile,bsize]
  unfold u32
  by_cases first : off > (st.icache ip).size.toNat ∨ (off + n) % 4294967296 < off
  · rw [if_pos first]
  · rw [if_neg first,if_pos (by omega)]

/-- What `writei` does where it does not refuse. -/
theorem writei_accepted (regular : (st.icache ip).type ≠ tDev) (start : off ≤ (st.icache ip).size.toNat)
    (room : off + n ≤ 71680) : writei st ip src off n = (int32 n,
      if n > 0 ∧ (writeiLoop ip src n n st 0 off).1 > ((writeiLoop ip src n n st 0 off).2.icache ip).size.toNat then
        iupdate ((writeiLoop ip src n n st 0 off).2.setDinode ip { ((writeiLoop ip src n n st 0 off).2.icache ip).toDinode with
          size := BitVec.ofNat 32 (writeiLoop ip src n n st 0 off).1 }) ip
      else (writeiLoop ip src n n st 0 off).2) := by
  have first : ¬(off > (st.icache ip).size.toNat ∨ u32 (off + n) < off) := by
    unfold u32
    omega
  have second : ¬u32 (off + n) > 140 * 512 := by
    unfold u32
    omega
  unfold writei
  simp only [regular,if_false,first,second,maxfile,bsize]

/-- An accepted `writei` is its loop, and a new size where the file grows. -/
theorem writei_written (ready : Ready dev ip st) (regular : (st.icache ip).type ≠ tDev)
    (start : off ≤ (st.icache ip).size.toNat) (room : off + n ≤ 71680)
    (free : (writei st ip src off n).2.exhausted = false) : (writei st ip src off n).1 = n ∧
    ∃ st1, Written dev ip src off n st st1 ∧
      (off + n ≤ (st.icache ip).size.toNat ∧ (writei st ip src off n).2 = st1 ∨
        (st.icache ip).size.toNat < off + n ∧ (writei st ip src off n).2 =
          iupdate (st1.setDinode ip { (st1.icache ip).toDinode with size := BitVec.ofNat 32 (off + n) }) ip) := by
  rw [writei_accepted regular start room] at free ⊢
  have loop := writeiLoop_spec ready src n n 0 off (by omega) (by omega)
  have place := writeiLoop_local ip src n n st 0 off
  generalize writeiLoop ip src n n st 0 off = r at free loop place ⊢
  obtain ⟨last,st'⟩ := r
  simp only [Nat.sub_zero,Nat.zero_add] at free loop place ⊢
  refine ⟨int32_of_lt (by omega),?_⟩
  have enough : st'.exhausted = false := by
    split at free
    · exact exhausted_of_suffix ((setDinode_local _ _ _).trans ((iupdate_io _ _).toLocal ip)).trace free
    · exact free
  obtain ⟨written,rfl⟩ := loop enough
  obtain ⟨addrs,attrs⟩ := written.attrs
  have size : (st'.icache ip).size = (st.icache ip).size := by
    have ready' := written.ready ready
    have copy' := FsState.volume_locked ready'.unique ready'.locked ready'.place
    rw [written.change.inum,attrs,FsState.volume_locked ready.unique ready.locked ready.place] at copy'
    exact (congrArg Dinode.size copy').symm
  refine ⟨st',written,?_⟩
  rw [size]
  split
  · rename_i grows
    exact Or.inr ⟨grows.2,rfl⟩
  · rename_i grows
    refine Or.inl ⟨?_,rfl⟩
    by_contra more
    exact grows ⟨by omega,by omega⟩

theorem writei_wrote (ready : Ready dev ip st) (regular : (st.icache ip).type ≠ tDev)
    (filled : (st.volume dev).Filled (st.icache ip).inum)
    (start : off ≤ (st.icache ip).size.toNat) (room : off + n ≤ 71680)
    (free : (writei st ip src off n).2.exhausted = false) :
    (writei st ip src off n).1 = n ∧ Wrote dev ip src off n st (writei st ip src off n).2 := by
  obtain ⟨result,st1,written,⟨inside,eq⟩ | ⟨grows,eq⟩⟩ := writei_written ready regular start room free
  · rw [eq]
    exact ⟨result,written.wrote_inside ready filled inside⟩
  · rw [eq]
    exact ⟨result,written.wrote_grown ready filled start grows room⟩

theorem writei_patched (ready : Ready dev ip st) (regular : (st.icache ip).type ≠ tDev)
    (start : off ≤ (st.icache ip).size.toNat) (room : off + n ≤ 71680)
    (free : (writei st ip src off n).2.exhausted = false) :
    (writei st ip src off n).1 = n ∧ Patched dev ip src off n st (writei st ip src off n).2 := by
  obtain ⟨result,st1,written,⟨inside,eq⟩ | ⟨grows,eq⟩⟩ := writei_written ready regular start room free
  · rw [eq]
    exact ⟨result,written.patched_inside ready inside⟩
  · rw [eq]
    exact ⟨result,(written.patched_grown ready grows room).1⟩

end result

end Lxos.Fs
