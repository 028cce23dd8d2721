import Lxos.Fs.Log
import Lxos.Fs.Tidy

/-! The disks that a crash can leave. Sectors are written one at a time, and the machine may
stop after any of them. What operations do in between is only to write blocks that they
allocated, as long as what they read has no holes. -/
namespace Lxos.Fs
open Lxos.Bytes

/-- `P` holds of the device before, after and between the writes on the way to another state. -/
def Through (dev : Nat) (P : (Nat → Block) → Prop) (st st' : FsState) : Prop :=
  ∃ es, Since st st' es ∧ st'.disk = replay st.disk es ∧ ∀ l, l <:+ es → P (replay st.disk l dev)

/-- A disk with bit `b` set, and block `b` not yet cleared. -/
def Volume.reserve (v : Volume) (b : Nat) : Volume :=
  v.setBlock (v.sb.bblock b) (blit (v.block (v.sb.bblock b)) (b % bpb / 8) 1
    fun _ => v.block (v.sb.bblock b) (b % bpb / 8) ||| bitMask (b % bpb))

/-- `P` is kept when a free block is allocated to nobody. -/
structure Allots (sb : Superblock) (P : (Nat → Block) → Prop) : Prop where
  reserve : ∀ image b, P image → b < sb.size → ¬(Volume.ofDisk sb image).marked b → P ((Volume.ofDisk sb image).reserve b).block
  clear : ∀ image b, P image → b < sb.size → ¬(Volume.ofDisk sb image).marked b → P ((Volume.ofDisk sb image).allocate b).block

section through
variable {dev : Nat} {P : (Nat → Block) → Prop} {st st1 st' : FsState}

theorem Through.finish (through : Through dev P st st') : P (st'.disk dev) := by
  obtain ⟨es,_,disk,all⟩ := through
  rw [disk]
  exact all es (List.suffix_refl es)

theorem Through.quiet (trace : st'.trace = st.trace) (disk : st'.disk = st.disk) (holds : P (st.disk dev)) :
    Through dev P st st' := by
  refine ⟨[],trace,disk,fun l short => ?_⟩
  rw [List.suffix_nil.mp short]
  exact holds

theorem Through.refl (holds : P (st.disk dev)) : Through dev P st st := Through.quiet rfl rfl holds

theorem Through.trans (first : Through dev P st st1) (second : Through dev P st1 st') : Through dev P st st' := by
  obtain ⟨es,since,disk,all⟩ := first
  obtain ⟨fs,since',disk',all'⟩ := second
  refine ⟨fs ++ es,since.trans since',by rw [disk',disk,replay_append],fun l short => ?_⟩
  rcases List.suffix_or_suffix_of_suffix short (List.suffix_append fs es) with early | late
  · exact all l early
  · obtain ⟨gs,rfl⟩ := late
    rw [replay_append,← disk]
    exact all' gs ((List.suffix_append_inj_of_length_eq rfl).mp short).1

/-- One event. -/
theorem Through.event {e : Event} (trace : st'.trace = e :: st.trace) (disk : st'.disk = e.store st.disk)
    (holds : P (st.disk dev)) (after : P (st'.disk dev)) : Through dev P st st' := by
  refine ⟨[e],trace,disk,fun l short => ?_⟩
  rcases List.suffix_cons_iff.mp short with rfl | nothing
  · have stored : replay st.disk [e] = st'.disk := disk.symm
    rw [stored]
    exact after
  · rw [List.suffix_nil.mp nothing]
    exact holds

theorem Through.bread (holds : P (st.disk dev)) (d b : Nat) : Through dev P st (bread st d b) :=
  Through.event rfl rfl holds holds

theorem Through.brelse (through : Through dev P st st1) (d b : Nat) : Through dev P st (brelse st1 d b) :=
  through.trans (Through.event rfl rfl through.finish through.finish)

theorem Through.print (holds : P (st.disk dev)) (m : Message) : Through dev P st (kprint st m) :=
  Through.event rfl rfl holds holds

theorem Through.printIf (holds : P (st.disk dev)) (p : Prop) [Decidable p] (m : Message) :
    Through dev P st (if p then kprint st m else st) := by
  split
  · exact Through.print holds m
  · exact Through.refl holds

theorem Through.rewrite {d b : Nat} {data : Block} (holds : P (st.disk dev))
    (after : P ((bwrite (Fs.bread st d b) d b data).disk dev)) :
    Through dev P st (Fs.brelse (bwrite (Fs.bread st d b) d b data) d b) :=
  ((Through.bread holds d b).trans (Through.event rfl rfl holds after)).brelse d b

theorem ballocBlocks_through (fuel b : Nat) (aligned : b % 4096 = 0) (allots : Allots st.sb P) (holds : P (st.disk dev)) :
    Through dev P st (ballocBlocks dev fuel st b).2 := by
  induction fuel generalizing st b with
  | zero => exact Through.print holds _
  | succ fuel ih =>
    unfold ballocBlocks
    by_cases inside : b < st.sb.size
    · simp only [inside,if_true,bread_disk,bread_sb]
      cases scan : ballocBits (st.disk dev (st.sb.bblock b)) b st.sb.size bpb 0 with
      | some bi =>
        dsimp only
        obtain ⟨_,high,bound,clear,_⟩ := ballocBits_some scan
        have small : bi < 4096 := by simpa using high
        have place : st.sb.bblock (b + bi) = st.sb.bblock b := by
          have quotient : (b + bi) / 4096 = b / 4096 := by omega
          change u32 ((b + bi) / 4096 + st.sb.bmapstart) = u32 (b / 4096 + st.sb.bmapstart)
          rw [quotient]
        have offset : (b + bi) % bpb = bi := by
          change (b + bi) % 4096 = bi
          omega
        have free : ¬(Volume.ofDisk st.sb (st.disk dev)).marked (b + bi) := by
          rw [marked_bit _ aligned small]
          exact not_not.mpr clear
        have reserved := allots.reserve _ _ holds bound free
        have cleared := allots.clear _ _ holds bound free
        have first : Through dev P st (brelse (bwrite (bread st dev (st.sb.bblock b)) dev (st.sb.bblock b)
            (blit (st.disk dev (st.sb.bblock b)) (bi / 8) 1 fun _ => st.disk dev (st.sb.bblock b) (bi / 8) ||| bitMask bi))
            dev (st.sb.bblock b)) := by
          refine Through.rewrite holds ?_
          rw [bwrite_disk]
          unfold Volume.reserve Volume.setBlock Volume.ofDisk at reserved
          dsimp only at reserved
          rw [place,offset] at reserved
          exact reserved
        refine first.trans (Through.rewrite first.finish ?_)
        rw [bwrite_disk,bread_disk,brelse_disk,bwrite_disk]
        unfold Volume.allocate Volume.setBlock Volume.ofDisk at cleared
        dsimp only at cleared
        rw [place,offset] at cleared
        exact cleared
      | none =>
        dsimp only
        have read := (Through.bread holds dev (st.sb.bblock b)).brelse dev (st.sb.bblock b)
        refine read.trans (ih (b + bpb) ?_ allots holds)
        change (b + 4096) % 4096 = 0
        omega
    · simp only [inside,if_false]
      exact Through.print holds _

theorem balloc_sb (st : FsState) (dev : Nat) : (balloc st dev).2.sb = st.sb := by
  rcases balloc_spec st dev with allocated | ⟨_,full⟩
  · exact allocated.sb
  · exact full.sb

theorem balloc_through (allots : Allots st.sb P) (holds : P (st.disk dev)) : Through dev P st (balloc st dev).2 :=
  ballocBlocks_through _ 0 (by decide) allots holds

variable {ip dp : Slot}

/-- The writes of `bmap` are allocations, and a last one to the indirect block. -/
theorem bmap_through (device : (st.icache ip).dev = dev) (allots : Allots st.sb P) (holds : P (st.disk dev)) (bn : Nat)
    (after : P ((bmap st ip bn).2.disk dev)) : Through dev P st (bmap st ip bn).2 := by
  have alloc (i : Nat) : Through dev P st ((balloc st dev).2.setAddr ip i (balloc st dev).1) := by
    have through := balloc_through allots holds
    exact through.trans (Through.quiet rfl rfl through.finish)
  unfold bmap at after ⊢
  dsimp only at after ⊢
  rw [device] at after ⊢
  split
  · split
    · exact alloc bn
    · exact Through.refl holds
  · rename_i direct
    rw [if_neg direct] at after
    split
    · rename_i index
      rw [if_pos index] at after
      have table : Through dev P st (if (st.icache ip).addr ndirect = 0 then
            ((balloc st dev).1,(balloc st dev).2.setAddr ip ndirect (balloc st dev).1)
          else ((st.icache ip).addr ndirect,st)).2 := by
        split
        · exact alloc ndirect
        · exact Through.refl holds
      have same : (if (st.icache ip).addr ndirect = 0 then
            ((balloc st dev).1,(balloc st dev).2.setAddr ip ndirect (balloc st dev).1)
          else ((st.icache ip).addr ndirect,st)).2.sb = st.sb := by
        split
        · exact balloc_sb st dev
        · rfl
      generalize (if (st.icache ip).addr ndirect = 0 then
          ((balloc st dev).1,(balloc st dev).2.setAddr ip ndirect (balloc st dev).1)
        else ((st.icache ip).addr ndirect,st)) = r at table same after ⊢
      obtain ⟨addr,st1⟩ := r
      dsimp only at table same after ⊢
      have read := table.trans (Through.bread table.finish dev addr)
      split
      · rename_i hole
        rw [if_pos hole] at after
        have allots1 : Allots (bread st1 dev addr).sb P := by
          rw [bread_sb,same]
          exact allots
        have taken := read.trans (balloc_through allots1 read.finish)
        have stored : Through dev P st (bwrite (balloc (bread st1 dev addr) dev).2 dev addr
            (put32 ((balloc (bread st1 dev addr) dev).2.disk dev addr) (4 * (bn - ndirect))
              (BitVec.ofNat 32 (balloc (bread st1 dev addr) dev).1))) :=
          taken.trans (Through.event rfl rfl taken.finish after)
        exact stored.brelse dev addr
      · exact read.brelse dev addr
    · exact Through.print holds _

theorem readiLoop_through (ready : Ready dev ip st) (allots : Allots st.sb P) (holds : P (st.disk dev)) (n fuel : Nat)
    (dst : Buffer) (tot off : Nat)
    (present : ∀ bn, off / 512 ≤ bn → bn * 512 < off + (n - tot) →
      bn < 140 ∧ (st.volume dev).ref ((st.icache ip).inum,bn) ≠ 0) :
    Through dev P st (readiLoop ip n fuel st dst tot off).2 := by
  induction fuel generalizing st dst tot off with
  | zero => exact Through.refl holds
  | succ fuel ih =>
    unfold readiLoop
    by_cases more : tot < n
    · simp only [more,if_true,ready.locked.2.1,bsize]
      obtain ⟨index,there⟩ := present (off / 512) (le_refl _) (by omega)
      obtain ⟨idle,_⟩ := bmap_present ready index there
      have mapped := bmap_through ready.locked.2.1 allots holds (off / 512) (by rw [idle.disk]; exact holds)
      generalize bmap st ip (off / 512) = r at idle mapped ⊢
      obtain ⟨a,st1⟩ := r
      dsimp only [bread_disk] at idle mapped ⊢
      have step := (idle.trans (bread_idle _ dev a)).trans (brelse_idle _ dev a)
      have read := (mapped.trans (Through.bread mapped.finish dev a)).brelse dev a
      refine read.trans (ih (ready.idle step) (by rw [step.sb]; exact allots) read.finish _ _ _ fun bn low high => ?_)
      rw [step.volume,step.icache]
      exact present bn (by omega) (by omega)
    · simp only [more,if_false]
      exact Through.refl holds

theorem readi_through (ready : Ready dev ip st) (filled : (st.volume dev).Filled (st.icache ip).inum)
    (allots : Allots st.sb P) (holds : P (st.disk dev)) (dst : Buffer) (off : Nat) {n : Nat} (width : n < 4294967296) :
    Through dev P st (readi st ip dst off n).2.2 := by
  have copy := FsState.volume_locked ready.unique ready.locked ready.place
  unfold Volume.Filled at filled
  rw [copy] at filled
  unfold readi
  by_cases device : (st.icache ip).type = tDev
  · simp only [device,if_true,devsw,ite_self]
    exact Through.refl holds
  · simp only [device,if_false]
    by_cases refused : off > (st.icache ip).size.toNat ∨ u32 (off + n) < off
    · simp only [refused,if_true]
      exact Through.refl holds
    · simp only [refused,if_false]
      obtain ⟨inside,wrap⟩ := not_or.mp refused
      generalize amount : (if u32 (off + n) > (st.icache ip).size.toNat then (st.icache ip).size.toNat - off else n) = m
      refine readiLoop_through ready allots holds m m dst 0 off fun bn low high => filled bn ?_
      unfold u32 at *
      split at amount <;> omega

theorem iupdate_through (holds : P (st.disk dev)) (after : P ((iupdate st ip).disk dev)) : Through dev P st (iupdate st ip) :=
  Through.rewrite holds after

/-- Where a write of `n` bytes at `off` may be interrupted: at its ends and between blocks. -/
def Pause (off n t : Nat) : Prop := t ≤ n ∧ (t = 0 ∨ t = n ∨ (off + t) % 512 = 0)

/-- The first `t` bytes were written, or a block was allocated for the next ones as well. -/
def Midway (dev : Nat) (ip : Slot) (src : Buffer) (off t : Nat) (st st' : FsState) : Prop :=
  ∃ st1, Written dev ip src off t st st1 ∧ Grown dev ip st1 st'

theorem writeiLoop_through (ready : Ready dev ip st) (allots : Allots st.sb P) (src : Buffer) (n fuel tot off : Nat)
    (enough : n ≤ tot + fuel) (room : off + (n - tot) ≤ 71680)
    (free : (writeiLoop ip src n fuel st tot off).2.exhausted = false)
    (safe : ∀ t st', Pause off (n - tot) t → Midway dev ip (fun i => src (tot + i)) off t st st' → P (st'.disk dev)) :
    Through dev P st (writeiLoop ip src n fuel st tot off).2 := by
  have holds : P (st.disk dev) :=
    safe 0 st ⟨Nat.zero_le _,Or.inl rfl⟩ ⟨st,Written.nil ready _ _,Grown.refl ready⟩
  induction fuel generalizing st tot off with
  | zero => exact Through.refl holds
  | succ fuel ih =>
    unfold writeiLoop at free ⊢
    by_cases more : tot < n
    · have index : off / 512 < 140 := by omega
      simp only [more,if_true,ready.locked.2.1,bsize] at free ⊢
      have first := bmap_spec ready index
      have still := fun there => (bmap_present ready index there).1.icache
      have mapped := bmap_through ready.locked.2.1 allots holds (off / 512)
      generalize bmap st ip (off / 512) = r at free first still mapped ⊢
      obtain ⟨a,st1⟩ := r
      simp only [bread_disk] at free first still mapped ⊢
      generalize chunk : min (n - tot) (512 - off % 512) = m at free ⊢
      generalize data : blit (st1.disk dev a) (off % 512) m (fun i => src (tot + i)) = block at free ⊢
      have io := ((emit_io st1 (.bread dev a)).trans (bwrite_io _ dev a block)).trans
        (emit_io _ (.brelse dev a))
      have later := writeiLoop_local ip src n fuel (brelse (bwrite (bread st1 dev a) dev a block) dev a)
        (tot + m) (off + m)
      obtain ⟨grown,value,nonzero⟩ := first (exhausted_of_suffix (io.trace.trans later.trace) free)
      have step := @Written.chunk dev ip st st1 ready grown (fun i => src (tot + i)) off m
        (by omega) index (by omega) (by rw [value]; exact nonzero) still
      rw [value] at step
      dsimp only at step
      rw [data] at step
      have took := mapped (safe 0 st1 ⟨Nat.zero_le _,Or.inl rfl⟩ ⟨st,Written.nil ready _ _,grown⟩)
      have ready' := step.ready ready
      have onward (t : Nat) (st' : FsState) (pause : Pause (off + m) (n - (tot + m)) t)
          (midway : Midway dev ip (fun i => src (tot + m + i)) (off + m) t
            (brelse (bwrite (bread st1 dev a) dev a block) dev a) st') : P (st'.disk dev) := by
        obtain ⟨st2,rest,grown2⟩ := midway
        obtain ⟨most,place⟩ := pause
        refine safe (m + t) st' ⟨by omega,?_⟩ ⟨st2,?_,grown2⟩
        · omega
        · simp only [Nat.add_assoc] at rest
          exact step.append rest (by omega)
      have written := onward 0 _ ⟨Nat.zero_le _,Or.inl rfl⟩ ⟨_,Written.nil ready' _ _,Grown.refl ready'⟩
      have stored := took.trans (Through.rewrite took.finish written)
      have sb : (brelse (bwrite (bread st1 dev a) dev a block) dev a).sb = st.sb := grown.frame.sb
      exact stored.trans (ih ready' (by rw [sb]; exact allots) (tot + m) (off + m) (by omega) (by omega) free onward written)
    · simp only [more,if_false]
      exact Through.refl holds

theorem writei_through {src : Buffer} {off n : Nat} (ready : Ready dev ip st) (allots : Allots st.sb P)
    (regular : (st.icache ip).type ≠ tDev) (start : off ≤ (st.icache ip).size.toNat) (room : off + n ≤ 71680)
    (free : (writei st ip src off n).2.exhausted = false)
    (safe : ∀ t st', Pause off n t → Midway dev ip src off t st st' → P (st'.disk dev))
    (after : P ((writei st ip src off n).2.disk dev)) : Through dev P st (writei st ip src off n).2 := by
  rw [writei_accepted regular start room] at free after ⊢
  have loop := writeiLoop_through ready allots src n n 0 off (by omega) (by omega)
  generalize writeiLoop ip src n n st 0 off = r at free loop after ⊢
  obtain ⟨last,st1⟩ := r
  simp only [Nat.sub_zero,Nat.zero_add] at free loop after ⊢
  have enough : st1.exhausted = false := by
    split at free
    · exact exhausted_of_suffix ((setDinode_local _ _ _).trans ((iupdate_io _ _).toLocal ip)).trace free
    · exact free
  have written := loop enough safe
  split
  · rename_i grows
    rw [if_pos grows] at after
    have sized := written.trans (Through.quiet rfl rfl written.finish)
    exact sized.trans (iupdate_through sized.finish after)
  · exact written

/-- One round of the loops over a directory, whichever message it may print. -/
theorem readEntry_through (ready : Ready dev dp st) (filled : (st.volume dev).Filled (st.icache dp).inum)
    (allots : Allots st.sb P) (holds : P (st.disk dev)) (de : Buffer) (off : Nat) {m : Message}
    (quiet : m ≠ .ballocOut ∧ m ≠ .iallocOut) :
    Idle st (if (readi st dp de off direntSize).1 ≠ ((direntSize : Nat) : Int) then
      kprint (readi st dp de off direntSize).2.2 m else (readi st dp de off direntSize).2.2) ∧
    Through dev P st (if (readi st dp de off direntSize).1 ≠ ((direntSize : Nat) : Int) then
      kprint (readi st dp de off direntSize).2.2 m else (readi st dp de off direntSize).2.2) := by
  have width : direntSize < 4294967296 := by decide
  have read := readi_through ready filled allots holds de off width
  exact ⟨(readi_idle ready filled de off width).trans (kprint_quiet _ _ quiet),
    read.trans (Through.printIf read.finish _ m)⟩

theorem iget_through {d n : Nat} {r : Slot × FsState} (ok : iget st d n = .ok r) (holds : P (st.disk dev)) :
    Through dev P st r.2 :=
  Through.quiet (iget_got ok).trace (iget_got ok).disk holds

theorem dirlookup_through {name : Buffer} {r : Option (Slot × Nat) × FsState} (ready : Ready dev dp st)
    (filled : (st.volume dev).Filled (st.icache dp).inum) (allots : Allots st.sb P) (holds : P (st.disk dev))
    (ok : dirlookup st dp name = .ok r) : Through dev P st r.2 := by
  have loop (fuel : Nat) {st : FsState} (ready : Ready dev dp st) (filled : (st.volume dev).Filled (st.icache dp).inum)
      (allots : Allots st.sb P) (holds : P (st.disk dev)) (de : Buffer) (off : Nat)
      (ok : dirlookupLoop dp name fuel st de off = .ok r) : Through dev P st r.2 := by
    induction fuel generalizing st de off with
    | zero => cases ok
    | succ fuel ih =>
      unfold dirlookupLoop at ok
      split at ok
      · have round := @readEntry_through dev P st dp ready filled allots holds de off .dirlookupRead (by decide)
        generalize readi st dp de off direntSize = read at ok round
        obtain ⟨count,de1,st1⟩ := read
        dsimp only at ok round
        generalize (if count ≠ ((direntSize : Nat) : Int) then kprint st1 .dirlookupRead else st1) = st2 at ok round
        obtain ⟨idle,through⟩ := round
        have later (ok : dirlookupLoop dp name fuel st2 de1 (u32 (off + direntSize)) = .ok r) : Through dev P st r.2 := by
          refine through.trans (ih (ready.idle idle) ?_ ?_ through.finish _ _ ok)
          · rw [idle.volume,idle.icache]
            exact filled
          · rw [idle.sb]
            exact allots
        split at ok
        · exact later ok
        · split at ok
          · generalize found : iget st2 (st2.icache dp).dev (le16 de1 0).toNat = got at ok
            cases got with
            | error e => cases ok
            | ok slot =>
              cases ok
              exact through.trans (iget_through found through.finish)
          · exact later ok
      · cases ok
        exact Through.refl holds
  have told := Through.printIf holds ((st.icache dp).type ≠ tDir) .dirlookupDir
  have idle := kprint_quiet st ((st.icache dp).type ≠ tDir) (show Message.dirlookupDir ≠ .ballocOut ∧ Message.dirlookupDir ≠ .iallocOut by decide)
  unfold dirlookup at ok
  generalize (if (st.icache dp).type ≠ tDir then kprint st .dirlookupDir else st) = st1 at ok told idle
  refine told.trans (loop _ (ready.idle idle) ?_ ?_ told.finish _ _ ok)
  · rw [idle.volume,idle.icache]
    exact filled
  · rw [idle.sb]
    exact allots

theorem dirlinkLoop_through (fuel : Nat) {r : Nat × FsState} (ready : Ready dev dp st)
    (filled : (st.volume dev).Filled (st.icache dp).inum) (allots : Allots st.sb P) (holds : P (st.disk dev)) (de : Buffer)
    (off : Nat) (ok : dirlinkLoop dp fuel st de off = .ok r) : Through dev P st r.2 := by
  induction fuel generalizing st de off with
  | zero => cases ok
  | succ fuel ih =>
    unfold dirlinkLoop at ok
    split at ok
    · have round := @readEntry_through dev P st dp ready filled allots holds de off .dirlinkRead (by decide)
      generalize readi st dp de off direntSize = read at ok round
      obtain ⟨count,de1,st1⟩ := read
      dsimp only at ok round
      generalize (if count ≠ ((direntSize : Nat) : Int) then kprint st1 .dirlinkRead else st1) = st2 at ok round
      obtain ⟨idle,through⟩ := round
      split at ok
      · cases ok
        exact through
      · refine through.trans (ih (ready.idle idle) ?_ ?_ through.finish _ _ ok)
        · rw [idle.volume,idle.icache]
          exact filled
        · rw [idle.sb]
          exact allots
    · cases ok
      exact Through.refl holds

theorem ilock_through (holds : P (st.disk dev)) (ip : Slot) : Through dev P st (ilock st ip) := by
  unfold ilock
  dsimp only
  have told := Through.printIf holds ((st.icache ip).ref < 1) .ilock
  generalize (if (st.icache ip).ref < 1 then kprint st .ilock else st) = st1 at told ⊢
  split
  · exact told
  · have read := told.trans (Through.bread told.finish (st1.icache ip).dev (st1.sb.iblock (st1.icache ip).inum))
    refine Through.trans (Through.trans (Through.brelse ?_ _ _) (Through.quiet rfl rfl ?_)) (Through.printIf ?_ _ _)
    · exact read.trans (Through.quiet rfl rfl read.finish)
    · exact read.finish
    · exact read.finish

/-- `ialloc` writes once. -/
theorem iallocLoop_through {type : BitVec 16} (fuel inum : Nat) {r : Option Slot × FsState} (holds : P (st.disk dev))
    (ok : iallocLoop dev type fuel st inum = .ok r) (after : P (r.2.disk dev)) : Through dev P st r.2 := by
  induction fuel generalizing st inum with
  | zero =>
    cases ok
    exact Through.print holds _
  | succ fuel ih =>
    unfold iallocLoop at ok
    dsimp only at ok
    split at ok
    · split at ok
      · split at ok
        · cases ok
        · rename_i ip st1 got
          cases ok
          have same := (iget_got got).disk
          dsimp only at after
          rw [same] at after
          exact (Through.rewrite holds after).trans (iget_through got after)
      · have read := (Through.bread holds dev (st.sb.iblock inum)).brelse dev (st.sb.iblock inum)
        exact read.trans (ih _ read.finish ok)
    · cases ok
      exact Through.print holds _

end through
end Lxos.Fs
