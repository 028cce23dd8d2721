import Lxos.Fs.Cache

/-! `balloc` finds the lowest free block, and `bmap` gives a file block its
address, allocating where there is none. Neither changes the content of a file. -/
namespace Lxos.Fs
open Lxos.Bytes

theorem ballocBits_some {data : Block} {b size fuel bi found : Nat}
    (ok : ballocBits data b size fuel bi = some found) :
    bi ≤ found ∧ found < bi + fuel ∧ b + found < size ∧ data (found / 8) &&& bitMask found = 0 ∧
      ∀ i, bi ≤ i → i < found → ¬(data (i / 8) &&& bitMask i = 0) := by
  induction fuel generalizing bi with
  | zero => exact absurd ok (by simp [ballocBits])
  | succ fuel ih =>
    unfold ballocBits at ok
    split_ifs at ok with bound clear
    · cases ok
      exact ⟨le_refl _,by omega,bound,clear,fun i _ _ => by omega⟩
    · obtain ⟨low,high,inside,test,before⟩ := ih ok
      refine ⟨by omega,by omega,inside,test,fun i hi less => ?_⟩
      by_cases first : i = bi
      · rw [first]
        exact clear
      · exact before i (by omega) less

theorem ballocBits_none {data : Block} {b size fuel bi : Nat}
    (full : ballocBits data b size fuel bi = none) :
    ∀ i, bi ≤ i → i < bi + fuel → b + i < size → ¬(data (i / 8) &&& bitMask i = 0) := by
  induction fuel generalizing bi with
  | zero => intro i _ _; omega
  | succ fuel ih =>
    intro i low high inside
    unfold ballocBits at full
    split_ifs at full with bound clear
    · by_cases first : i = bi
      · rw [first]
        exact clear
      · exact ih full i (by omega) (by omega) inside
    · omega

/-- The bit that `balloc` tests at `bi` is the one of block `b + bi`. -/
theorem marked_bit (v : Volume) {b bi : Nat} (aligned : b % 4096 = 0) (h : bi < 4096) :
    v.marked (b + bi) ↔ ¬(v.block (v.sb.bblock b) (bi / 8) &&& bitMask bi = 0) := by
  have place : v.sb.bblock (b + bi) = v.sb.bblock b := by
    have quotient : (b + bi) / 4096 = b / 4096 := by omega
    change u32 ((b + bi) / 4096 + v.sb.bmapstart) = u32 (b / 4096 + v.sb.bmapstart)
    rw [quotient]
  have offset : (b + bi) % 4096 = bi := by omega
  have bit : (b + bi) % 8 = bi % 8 := by omega
  rw [Volume.bitMask_test,Bool.not_eq_false]
  change ((v.block (v.sb.bblock (b + bi)) ((b + bi) % 4096 / 8)).getLsbD ((b + bi) % 8) = true) ↔ _
  rw [place,offset,bit]

/-- `balloc` took block `b`. -/
structure Allocated (dev b : Nat) (st st' : FsState) : Prop where
  bound : b < st.sb.size
  free : ¬(st.volume dev).marked b
  lowest : ∀ c < b, (st.volume dev).marked c
  sb : st'.sb = st.sb
  disk : st'.disk dev = ((st.volume dev).allocate b).block

/-- `balloc` found no clear bit. -/
structure Full (dev : Nat) (st st' : FsState) : Prop where
  full : ∀ c < st.sb.size, (st.volume dev).marked c
  sb : st'.sb = st.sb
  disk : st'.disk = st.disk
  told : st'.exhausted = true

theorem ballocBlocks_spec (dev fuel : Nat) (st : FsState) (b : Nat) (aligned : b % 4096 = 0)
    (before : ∀ c < b, c < st.sb.size → (st.volume dev).marked c)
    (enough : st.sb.size < b + fuel * 4096) :
    Allocated dev (ballocBlocks dev fuel st b).1 st (ballocBlocks dev fuel st b).2 ∨
      (ballocBlocks dev fuel st b).1 = 4294967295 ∧ Full dev st (ballocBlocks dev fuel st b).2 := by
  induction fuel generalizing st b with
  | zero => exact Or.inr ⟨rfl,fun c h => before c (by omega) h,rfl,rfl,rfl⟩
  | succ fuel ih =>
    unfold ballocBlocks
    by_cases inside : b < st.sb.size
    · simp only [inside,if_true,bread_disk,bread_sb]
      cases scan : ballocBits (st.disk dev (st.sb.bblock b)) b st.sb.size bpb 0 with
      | some bi =>
        dsimp only
        obtain ⟨_,high,bound,clear,earlier⟩ := ballocBits_some scan
        have small : bi < 4096 := by simpa using high
        have place : st.sb.bblock (b + bi) = st.sb.bblock b := by
          have quotient : (b + bi) / 4096 = b / 4096 := by omega
          change u32 ((b + bi) / 4096 + st.sb.bmapstart) = u32 (b / 4096 + st.sb.bmapstart)
          rw [quotient]
        have offset : (b + bi) % bpb = bi := by
          change (b + bi) % 4096 = bi
          omega
        refine Or.inl ⟨bound,?_,?_,rfl,?_⟩
        · rw [marked_bit _ aligned small]
          exact not_not.mpr clear
        · intro c less
          by_cases old : c < b
          · exact before c old (by omega)
          · have split : b + (c - b) = c := by omega
            rw [← split,marked_bit _ aligned (by omega)]
            exact earlier _ (by omega) (by omega)
        · simp only [bzero,brelse_disk,bread_disk,bwrite_disk,Volume.allocate,Volume.setBlock,offset]
          change _ = Function.update (Function.update (st.disk dev) (st.sb.bblock (b + bi))
            (blit (st.disk dev (st.sb.bblock (b + bi))) _ _ fun _ =>
              st.disk dev (st.sb.bblock (b + bi)) _ ||| _)) _ _
          rw [place]
      | none =>
        dsimp only
        have none := ballocBits_none scan
        have next := ih (brelse (bread st dev (st.sb.bblock b)) dev (st.sb.bblock b)) (b + bpb) ?_ ?_ ?_
        · rcases next with a | ⟨value,f⟩
          · exact Or.inl ⟨a.bound,a.free,a.lowest,a.sb,a.disk⟩
          · exact Or.inr ⟨value,f.full,f.sb,f.disk,f.told⟩
        · change (b + 4096) % 4096 = 0
          omega
        · intro c less bound
          change c < b + 4096 at less
          by_cases old : c < b
          · exact before c old bound
          · have split : b + (c - b) = c := by omega
            change (st.volume dev).marked c
            change c < st.sb.size at bound
            rw [← split,marked_bit _ aligned (by omega)]
            exact none _ (by omega) (by change c - b < 0 + 4096; omega) (by omega)
        · change st.sb.size < b + 4096 + fuel * 4096
          omega
    · simp only [inside,if_false]
      exact Or.inr ⟨trivial,fun c h => before c (by omega) h,rfl,rfl,rfl⟩

theorem balloc_spec (st : FsState) (dev : Nat) :
    Allocated dev (balloc st dev).1 st (balloc st dev).2 ∨
      (balloc st dev).1 = 4294967295 ∧ Full dev st (balloc st dev).2 := by
  refine ballocBlocks_spec dev _ st 0 (by decide) (fun c h => by omega) ?_
  change st.sb.size < 0 + (st.sb.size / 4096 + 1) * 4096
  omega

theorem exhausted_of_suffix {st st' : FsState} (trace : st.trace <:+ st'.trace)
    (enough : st'.exhausted = false) : st.exhausted = false := by
  obtain ⟨events,equal⟩ := trace
  unfold FsState.exhausted at *
  rw [← equal,List.any_append,Bool.or_eq_false_iff] at enough
  exact enough.2

theorem balloc_allocated {st : FsState} {dev : Nat} (enough : (balloc st dev).2.exhausted = false) :
    Allocated dev (balloc st dev).1 st (balloc st dev).2 := by
  rcases balloc_spec st dev with allocated | ⟨_,full⟩
  · exact allocated
  · exact absurd full.told (by rw [enough]; decide)

/-- Slot `ip` holds a loaded inode of a sound volume. -/
structure Ready (dev : Nat) (ip : Slot) (st : FsState) : Prop where
  unique : st.Unique
  locked : st.Locked dev ip
  place : (st.icache ip).inum < st.sb.slots
  sound : (st.volume dev).Sound

/-- Blocks were allocated to the inode in slot `ip`, and no file changed. -/
structure Grown (dev : Nat) (ip : Slot) (st st' : FsState) : Prop where
  change : Local ip st st'
  sound : (st'.volume dev).Sound
  frame : Volume.Frame (st.volume dev).marked (st'.volume dev).marked (st.icache ip).inum
    (st.volume dev) (st'.volume dev)
  attrs : ∃ addrs, (st'.volume dev).inode (st.icache ip).inum =
    { (st.volume dev).inode (st.icache ip).inum with addrs := addrs }
  table : ∀ c < st.sb.bmapstart, st'.disk dev c = st.disk dev c
  byte : (st'.volume dev).byte = (st.volume dev).byte

section grown
variable {dev b : Nat} {ip : Slot} {st st' st'' : FsState}

theorem Local.unique (change : Local ip st st') (unique : st.Unique) : st'.Unique := by
  intro s t
  rw [change.ref,change.ref,change.dev,change.dev,change.inum,change.inum]
  exact unique s t

theorem Local.locked (change : Local ip st st') {s : Slot} (locked : st.Locked dev s) :
    st'.Locked dev s := by
  refine ⟨?_,?_,?_⟩
  · rw [change.ref]
    exact locked.1
  · rw [change.dev]
    exact locked.2.1
  · rw [change.valid]
    exact locked.2.2

theorem Ready.step (ready : Ready dev ip st) (change : Local ip st st') (sb : st'.sb = st.sb)
    (sound : (st'.volume dev).Sound) : Ready dev ip st' where
  unique := change.unique ready.unique
  locked := change.locked ready.locked
  place := by
    rw [change.inum,sb]
    exact ready.place
  sound := sound

theorem Grown.ready (grown : Grown dev ip st st') (ready : Ready dev ip st) : Ready dev ip st' :=
  ready.step grown.change grown.frame.sb grown.sound

theorem Grown.refl (ready : Ready dev ip st) : Grown dev ip st st :=
  ⟨Local.refl ip st,ready.sound,Volume.Frame.refl _ _ _,⟨_,rfl⟩,fun _ _ => rfl,rfl⟩

theorem Grown.trans (first : Grown dev ip st st') (second : Grown dev ip st' st'') :
    Grown dev ip st st'' where
  change := first.change.trans second.change
  sound := second.sound
  frame := by
    have next := second.frame
    rw [first.change.inum] at next
    exact first.frame.trans next
  attrs := by
    obtain ⟨a,ha⟩ := first.attrs
    obtain ⟨b,hb⟩ := second.attrs
    rw [first.change.inum] at hb
    exact ⟨b,by rw [hb,ha]⟩
  table := fun c h => (second.table c (by
    have same : st'.sb = st.sb := first.frame.sb
    rw [same]
    exact h)).trans (first.table c h)
  byte := second.byte.trans first.byte

theorem Grown.quiet (ready : Ready dev ip st) (change : Local ip st st')
    (same : st'.volume dev = st.volume dev) : Grown dev ip st st' where
  change := change
  sound := same ▸ ready.sound
  frame := same ▸ Volume.Frame.refl _ _ _
  attrs := ⟨_,by rw [same]⟩
  table := fun c _ => congrFun (congrArg Volume.block same) c
  byte := congrArg Volume.byte same

theorem Grown.claim (ready : Ready dev ip st) (change : Local ip st st') {p : Nat}
    (claim : Volume.Claim (st.volume dev).marked (st'.volume dev).marked (st.icache ip).inum p b
      (st.volume dev) (st'.volume dev)) : Grown dev ip st st' :=
  ⟨change,claim.owned ready.sound,claim.frame ready.sound,claim.attrs,claim.table,claim.byte ready.sound⟩

theorem Allocated.volume (sound : (st.volume dev).Sound) (io : DiskOnly st st')
    (allocated : Allocated dev b st st') : st'.volume dev = (st.volume dev).allocate b := by
  have same (c : Nat) (h : c < st.sb.bmapstart) : st'.disk dev c = st.disk dev c := by
    rw [allocated.disk]
    exact Volume.allocate_table sound allocated.free allocated.bound c h
  rw [FsState.volume_blocks sound.layout allocated.sb io.icache same,allocated.disk]
  rfl

/-- `ip->addrs[i] = balloc(dev)`, for a direct address or the indirect block. -/
theorem ballocAddr_grown (ready : Ready dev ip st) {p i : Nat}
    (index : p = i ∧ i < 12 ∨ p = 140 ∧ i = 12)
    (empty : (st.volume dev).ref ((st.icache ip).inum,p) = 0)
    (enough : (balloc st dev).2.exhausted = false) :
    let st' := (balloc st dev).2.setAddr ip i (balloc st dev).1
    Grown dev ip st st' ∧ (st'.volume dev).ref ((st.icache ip).inum,p) = (balloc st dev).1 ∧
      (balloc st dev).1 ≠ 0 := by
  intro st'
  have allocated := balloc_allocated enough
  have io := balloc_io st dev
  have change := (ballocAddr_mapped st ip i dev).toLocal
  have middle : (balloc st dev).2.volume dev = _ := allocated.volume ready.sound io
  have icache := congrFun io.icache ip
  have copy := FsState.volume_locked ready.unique ready.locked ready.place
  have place : ((balloc st dev).2.icache ip).inum < (balloc st dev).2.sb.slots := by
    rw [icache,allocated.sb]
    exact ready.place
  have after : st'.volume dev = ((st.volume dev).allocate (balloc st dev).1).setInode (st.icache ip).inum
      (((st.volume dev).inode (st.icache ip).inum).setAddr i (balloc st dev).1) := by
    have set := FsState.volume_setDinode ((io.toLocal ip).unique ready.unique)
      ((io.toLocal ip).locked ready.locked) place
      (((balloc st dev).2.icache ip).toDinode.setAddr i (balloc st dev).1)
    rw [middle,icache] at set
    rw [copy]
    simpa only [st',FsState.setAddr,icache] using set
  have claim := Volume.claim_addr ready.sound allocated.free allocated.bound ready.place index empty
  rw [← after] at claim
  refine ⟨Grown.claim ready change claim,?_,(claim.nonzero ready.sound).2⟩
  rw [claim.ref,Function.update_self]

/-- `a[j] = balloc(dev)` in the indirect block, written at once. -/
theorem ballocEntry_grown (ready : Ready dev ip st) {j : Nat} (index : j < 128)
    (present : (st.volume dev).ref ((st.icache ip).inum,140) ≠ 0)
    (empty : (st.volume dev).ref ((st.icache ip).inum,12+j) = 0)
    (enough : (balloc st dev).2.exhausted = false) :
    let a := (st.volume dev).ref ((st.icache ip).inum,140)
    let st' := bwrite (balloc st dev).2 dev a
      (put32 ((balloc st dev).2.disk dev a) (4*j) (BitVec.ofNat 32 (balloc st dev).1))
    Grown dev ip st st' ∧ (st'.volume dev).ref ((st.icache ip).inum,12+j) = (balloc st dev).1 ∧
      (balloc st dev).1 ≠ 0 := by
  intro a st'
  have allocated := balloc_allocated enough
  have io := balloc_io st dev
  have change : Local ip st st' := (io.trans (bwrite_io _ _ _ _)).toLocal ip
  have middle : (balloc st dev).2.volume dev = _ := allocated.volume ready.sound io
  have layout : (balloc st dev).2.sb.Layout := allocated.sb ▸ ready.sound.layout
  have low : (balloc st dev).2.sb.bmapstart ≤ a := by
    have range := (ready.sound.range _ present).1
    rw [Superblock.nmeta_eq] at range
    rw [allocated.sb]
    exact Nat.le_trans (Nat.le_add_right _ _) range
  have claim := Volume.claim_entry ready.sound allocated.free allocated.bound index present empty
  have after : st'.volume dev = ((st.volume dev).allocate (balloc st dev).1).setBlock a
      (put32 (((st.volume dev).allocate (balloc st dev).1).block a) (4*j)
        (BitVec.ofNat 32 (balloc st dev).1)) := by
    rw [FsState.volume_bwrite layout low,middle,allocated.disk]
  dsimp only at claim
  rw [← after] at claim
  refine ⟨Grown.claim ready change claim,?_,(claim.nonzero ready.sound).2⟩
  rw [claim.ref,Function.update_self]

private theorem indirect_grown (ready : Ready dev ip st)
    (enough : ((if (st.icache ip).addr 12 = 0 then
        ((balloc st dev).1,(balloc st dev).2.setAddr ip 12 (balloc st dev).1)
      else ((st.icache ip).addr 12,st)) : Nat × FsState).2.exhausted = false) :
    let r : Nat × FsState := if (st.icache ip).addr 12 = 0 then
        ((balloc st dev).1,(balloc st dev).2.setAddr ip 12 (balloc st dev).1)
      else ((st.icache ip).addr 12,st)
    Grown dev ip st r.2 ∧ (r.2.volume dev).ref ((st.icache ip).inum,140) = r.1 ∧ r.1 ≠ 0 := by
  intro r
  have copy := FsState.volume_locked ready.unique ready.locked ready.place
  have value : (st.volume dev).ref ((st.icache ip).inum,140) = (st.icache ip).addr 12 := by
    rw [Volume.ref_indirect _ ready.place,copy]
  by_cases absent : (st.icache ip).addr 12 = 0
  · have more : (balloc st dev).2.exhausted = false := by
      rw [if_pos absent] at enough
      exact enough
    have new := ballocAddr_grown ready (Or.inr ⟨rfl,rfl⟩) (value.trans absent) more
    simpa only [r,absent,if_true] using new
  · simp only [r,absent,if_false]
    exact ⟨Grown.refl ready,value,absent⟩

/-- `bmap` returns the address of the block, which then exists. -/
theorem bmap_spec (ready : Ready dev ip st) {bn : Nat} (index : bn < 140)
    (enough : (bmap st ip bn).2.exhausted = false) :
    Grown dev ip st (bmap st ip bn).2 ∧
      ((bmap st ip bn).2.volume dev).ref ((st.icache ip).inum,bn) = (bmap st ip bn).1 ∧
      (bmap st ip bn).1 ≠ 0 := by
  have copy := FsState.volume_locked ready.unique ready.locked ready.place
  have device := ready.locked.2.1
  unfold bmap at enough ⊢
  by_cases direct : bn < 12
  · simp only [ndirect,direct,if_true,device] at enough ⊢
    have value : (st.volume dev).ref ((st.icache ip).inum,bn) = (st.icache ip).addr bn := by
      rw [Volume.ref_direct _ ready.place direct,copy]
    by_cases absent : (st.icache ip).addr bn = 0
    · simp only [absent,if_true] at enough ⊢
      exact ballocAddr_grown ready (Or.inl ⟨rfl,direct⟩) (value.trans absent) enough
    · simp only [absent,if_false] at enough ⊢
      exact ⟨Grown.refl ready,value,absent⟩
  · obtain ⟨j,rfl⟩ : ∃ j, bn = 12 + j := ⟨bn - 12,by omega⟩
    have small : j < 128 := by omega
    have shift : 12 + j - 12 = j := by omega
    simp only [ndirect,nindirect,direct,if_false,device,shift,small,if_true] at enough ⊢
    have first := indirect_grown ready
    generalize ((if (st.icache ip).addr 12 = 0 then
        ((balloc st dev).1,(balloc st dev).2.setAddr ip 12 (balloc st dev).1)
      else ((st.icache ip).addr 12,st)) : Nat × FsState) = r at first enough ⊢
    obtain ⟨a,st1⟩ := r
    dsimp only at first enough ⊢
    have grows : st1.exhausted = false := by
      split at enough
      · exact exhausted_of_suffix (((emit_io st1 _).trans (balloc_io _ _)).trans
          ((bwrite_io _ _ _ _).trans (emit_io _ _))).trace enough
      · exact exhausted_of_suffix ((emit_io st1 _).trans (emit_io _ _)).trace enough
    obtain ⟨grown,value,present⟩ := first grows
    have ready1 := grown.ready ready
    have inum := grown.change.inum ip
    have ready2 : Ready dev ip (bread st1 dev a) :=
      ready1.step ((emit_io st1 _).toLocal ip) rfl ready1.sound
    have present1 : (st1.volume dev).ref ((st1.icache ip).inum,140) ≠ 0 := by
      rw [inum,value]
      exact present
    have entry := Volume.ref_entry (st1.volume dev) ready1.place small present1
    rw [inum,value] at entry
    by_cases absent : (le32 (st1.disk dev a) (4*j)).toNat = 0
    · simp only [bread_disk,absent,if_true] at enough ⊢
      have more : (balloc (bread st1 dev a) dev).2.exhausted = false :=
        exhausted_of_suffix ((bwrite_io _ _ _ _).trans (emit_io _ _)).trace enough
      have new := ballocEntry_grown (j := j) ready2 small present1
        (by rw [bread_icache,inum]; exact entry.trans absent) more
      have same : ((bread st1 dev a).volume dev).ref ((st.icache ip).inum,140) = a := value
      rw [bread_icache,inum,same] at new
      obtain ⟨second,at_entry,nonzero⟩ := new
      have step1 : Grown dev ip st1 (bread st1 dev a) :=
        Grown.quiet ready1 ((emit_io st1 _).toLocal ip) rfl
      have ready3 := second.ready ready2
      exact ⟨((grown.trans step1).trans second).trans
        (Grown.quiet ready3 ((emit_io _ _).toLocal ip) rfl),at_entry,nonzero⟩
    · simp only [bread_disk,absent,if_false] at enough ⊢
      exact ⟨grown.trans (Grown.quiet ready1 (((emit_io st1 _).trans (emit_io _ _)).toLocal ip) rfl),
        entry,absent⟩

/-- For any block index, `bmap` answers with the address of the block. -/
theorem bmap_addr (ready : Ready dev ip st) (bn : Nat) (enough : (bmap st ip bn).2.exhausted = false) :
    Grown dev ip st (bmap st ip bn).2 ∧
      (bmap st ip bn).1 = ((bmap st ip bn).2.volume dev).addr (st.icache ip).inum bn ∧
      (bmap st ip bn).1 ≠ 0 := by
  by_cases index : bn < 140
  · obtain ⟨grown,value,nonzero⟩ := bmap_spec ready index enough
    exact ⟨grown,by rw [Volume.addr,if_pos index,value],nonzero⟩
  · have direct : ¬bn < 12 := by omega
    have beyond : ¬bn - 12 < 128 := by omega
    simp only [bmap,ndirect,nindirect,direct,beyond,if_false]
    exact ⟨Grown.quiet ready ((emit_io st _).toLocal ip) rfl,(if_neg index).symm,by decide⟩

/-- Where the block exists, `bmap` only looks its address up. -/
theorem bmap_present (ready : Ready dev ip st) {bn : Nat} (index : bn < 140)
    (present : (st.volume dev).ref ((st.icache ip).inum,bn) ≠ 0) :
    Idle st (bmap st ip bn).2 ∧ (bmap st ip bn).1 = (st.volume dev).ref ((st.icache ip).inum,bn) := by
  have copy := FsState.volume_locked ready.unique ready.locked ready.place
  unfold bmap
  by_cases direct : bn < 12
  · have value := Volume.ref_direct (st.volume dev) ready.place direct
    rw [copy] at value
    rw [value] at present ⊢
    simp only [ndirect,direct,if_true,present,if_false]
    exact ⟨Idle.refl st,trivial⟩
  · obtain ⟨j,rfl⟩ : ∃ j, bn = 12 + j := ⟨bn - 12,by omega⟩
    have small : j < 128 := by omega
    have shift : 12 + j - 12 = j := by omega
    have there : (st.volume dev).ref ((st.icache ip).inum,140) ≠ 0 :=
      fun absent => present (Volume.ref_entry_absent _ small absent)
    have value := Volume.ref_entry (st.volume dev) ready.place small there
    have indirect := Volume.ref_indirect (st.volume dev) ready.place
    rw [copy] at indirect
    rw [indirect] at value there
    rw [value] at present ⊢
    simp only [ndirect,nindirect,direct,if_false,shift,small,if_true,there,ready.locked.2.1,bread_disk]
    rw [if_neg (by exact present)]
    exact ⟨(bread_idle _ _ _).trans (brelse_idle _ _ _),rfl⟩

end grown

/-! `ilock` loads what the volume already holds. -/
section ilock
variable {dev : Nat} {ip : Slot} {st st' : FsState}

/-- Slot `ip` is referenced for an inode of the volume. -/
structure Named (dev : Nat) (ip : Slot) (st : FsState) : Prop where
  unique : st.Unique
  ref : 0 < (st.icache ip).ref
  dev : (st.icache ip).dev = dev
  place : (st.icache ip).inum < st.sb.slots

theorem Calm.unique (calm : Calm st st') (unique : st.Unique) : st'.Unique := by
  intro s t
  rw [calm.ref,calm.ref,calm.dev,calm.dev,calm.inum,calm.inum]
  exact unique s t

/-- The slot as `ilock` fills it. -/
structure Loaded (dev : Nat) (ip : Slot) (st st' : FsState) : Prop where
  disk : st'.disk = st.disk
  sb : st'.sb = st.sb
  other : ∀ s, s ≠ ip → st'.icache s = st.icache s
  self : st'.icache ip = { st.icache ip with
    toDinode := if (st.icache ip).valid then (st.icache ip).toDinode else st.table dev (st.icache ip).inum
    valid := true }
  exhausted : st'.exhausted = st.exhausted
  inodes : st'.inodesExhausted = st.inodesExhausted

theorem ilock_loaded (named : Named dev ip st) : Loaded dev ip st (ilock st ip) := by
  have positive : ¬(st.icache ip).ref < 1 := by
    have := named.ref
    omega
  unfold ilock
  simp only [positive,if_false]
  cases valid : (st.icache ip).valid with
  | true =>
    simp only [if_true]
    refine ⟨rfl,rfl,fun _ _ => rfl,?_,rfl,rfl⟩
    rw [valid]
    simp only [if_true,← valid]
  | false =>
    have loaded (st' : FsState) (idle : Idle ((st.setDinode ip (st.table dev (st.icache ip).inum)).setInode ip
        { (st.setDinode ip (st.table dev (st.icache ip).inum)).icache ip with valid := true }) st') :
        Loaded dev ip st st' := by
      refine ⟨idle.disk,idle.sb,fun s h => ?_,?_,idle.exhausted,idle.inodes⟩
      · rw [idle.icache,FsState.setInode_other _ _ _ _ h,FsState.setDinode_other _ _ _ _ h]
      · rw [idle.icache,valid]
        simp
    simp only [Bool.false_eq_true,if_false]
    have steps := (bread_idle ((st.setDinode ip (st.table dev (st.icache ip).inum)).setInode ip
        { (st.setDinode ip (st.table dev (st.icache ip).inum)).icache ip with valid := true }) dev
        (st.sb.iblock (st.icache ip).inum)).trans (brelse_idle _ dev (st.sb.iblock (st.icache ip).inum))
    rw [named.dev]
    split
    · exact loaded _ (steps.trans (kprint_idle _ (by decide)))
    · exact loaded _ steps

theorem Loaded.unique (loaded : Loaded dev ip st st') (named : Named dev ip st) : st'.Unique := by
  have same (s : Slot) : (st'.icache s).ref = (st.icache s).ref ∧
      (st'.icache s).dev = (st.icache s).dev ∧ (st'.icache s).inum = (st.icache s).inum := by
    by_cases here : s = ip
    · rw [here,loaded.self]
      exact ⟨rfl,rfl,rfl⟩
    · rw [loaded.other s here]
      exact ⟨rfl,rfl,rfl⟩
  intro s t
  rw [(same s).1,(same t).1,(same s).2.1,(same t).2.1,(same s).2.2,(same t).2.2]
  exact named.unique s t

theorem Loaded.locked (loaded : Loaded dev ip st st') (named : Named dev ip st) : st'.Locked dev ip := by
  unfold FsState.Locked
  rw [loaded.self]
  exact ⟨named.ref,named.dev,rfl⟩

theorem Loaded.volume (loaded : Loaded dev ip st st') (named : Named dev ip st) :
    st'.volume dev = st.volume dev := by
  have table (k : Nat) : st'.table dev k = st.table dev k := by
    unfold FsState.table
    rw [loaded.disk,loaded.sb]
  refine FsState.volume_ext loaded.sb.symm (congrFun loaded.disk dev).symm (fun k h => ?_) (fun k h => ?_)
  · rw [loaded.sb] at h
    rw [FsState.volume_inode h]
    refine (FsState.dinode_congr named.unique (loaded.unique named) (table k) ?_ ?_).symm
    · intro s locked number
      refine Or.inl ?_
      by_cases here : s = ip
      · subst s
        have value := loaded.self
        rw [locked.2.2] at value
        refine ⟨loaded.locked named,?_,?_⟩
        · rw [value]
          exact number
        · rw [value]
          rfl
      · have same := loaded.other s here
        unfold FsState.Locked
        rw [same]
        exact ⟨locked,number,rfl⟩
    · intro s locked number
      by_cases here : s = ip
      · subst s
        have value := loaded.self
        rw [value] at number ⊢
        cases valid : (st.icache ip).valid with
        | true => exact Or.inl ⟨⟨named.ref,named.dev,valid⟩,number⟩
        | false =>
          refine Or.inr ?_
          simp only [Bool.false_eq_true,if_false]
          exact congrArg _ number
      · have same := loaded.other s here
        unfold FsState.Locked at locked
        rw [same] at locked number
        exact Or.inl ⟨locked,number⟩
  · rw [loaded.sb] at h
    exact FsState.volume_rest h

theorem ilock_ready (named : Named dev ip st) (sound : (st.volume dev).Sound) : Ready dev ip (ilock st ip) := by
  have loaded := ilock_loaded named
  refine ⟨loaded.unique named,loaded.locked named,?_,?_⟩
  · rw [loaded.self,loaded.sb]
    exact named.place
  · rw [loaded.volume named]
    exact sound

end ilock

end Lxos.Fs
