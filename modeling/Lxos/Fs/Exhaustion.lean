import Lxos.Fs.BlockMap
import Lxos.Fs.Log

/-! A disk without free blocks. `balloc` answers with `-1` then, which is a block number
like any other to the functions that called it. -/
namespace Lxos.Fs
open Lxos.Bytes

/-- `balloc` finds no free block on the way. -/
def RunsOut (es : List Event) : Prop := .print .ballocOut ∈ es

/-- The block that stands for failure is asked for. -/
def AsksBeyond (es : List Event) : Prop := ∃ dev, .bread dev 4294967295 ∈ es

section events
variable {st st' st'' : FsState} {es fs : List Event} {dev : Nat} {e : Event}

theorem AsksBeyond.left (asks : AsksBeyond fs) (es : List Event) : AsksBeyond (fs ++ es) := by
  obtain ⟨dev,here⟩ := asks
  exact ⟨dev,List.mem_append_left _ here⟩

theorem AsksBeyond.right (asks : AsksBeyond es) (fs : List Event) : AsksBeyond (fs ++ es) := by
  obtain ⟨dev,here⟩ := asks
  exact ⟨dev,List.mem_append_right _ here⟩

end events

section balloc
variable {dev : Nat} {ip : Slot}

/-- `balloc` prints nothing but its failure. -/
theorem balloc_since (st : FsState) (dev : Nat) : ∃ es, Since st (balloc st dev).2 es ∧
    (RunsOut es → (balloc st dev).1 = 4294967295) := by
  have loop (fuel : Nat) (st : FsState) (b : Nat) : ∃ es, Since st (ballocBlocks dev fuel st b).2 es ∧
      (RunsOut es → (ballocBlocks dev fuel st b).1 = 4294967295) := by
    induction fuel generalizing st b with
    | zero => exact ⟨[.print .ballocOut],rfl,fun _ => rfl⟩
    | succ fuel ih =>
      unfold ballocBlocks
      split
      · dsimp only
        split
        · rename_i bi _
          refine ⟨[.brelse dev (b + bi),.bwrite dev (b + bi) zeros,.bread dev (b + bi),.brelse dev (st.sb.bblock b),
            .bwrite dev (st.sb.bblock b) _,.bread dev (st.sb.bblock b)],rfl,fun out => ?_⟩
          simp [RunsOut] at out
        · obtain ⟨es,since,fails⟩ := ih (brelse (bread st dev (st.sb.bblock b)) dev (st.sb.bblock b)) (b + bpb)
          have round : Since st (brelse (bread st dev (st.sb.bblock b)) dev (st.sb.bblock b))
              [.brelse dev (st.sb.bblock b),.bread dev (st.sb.bblock b)] := rfl
          refine ⟨_,round.trans since,fun out => fails ?_⟩
          simpa [RunsOut] using out
      · exact ⟨[.print .ballocOut],rfl,fun _ => rfl⟩
  exact loop _ st 0

/-- The failure of an allocation comes back as the address, or is used as that of an indirect block. -/
theorem bmap_since (st : FsState) (ip : Slot) (bn : Nat) : ∃ es, Since st (bmap st ip bn).2 es ∧
    (RunsOut es → (bmap st ip bn).1 = 4294967295 ∨ AsksBeyond es) := by
  unfold bmap
  dsimp only
  split
  · split
    · obtain ⟨es,since,fails⟩ := balloc_since st (st.icache ip).dev
      exact ⟨es,since,fun out => Or.inl (fails out)⟩
    · exact ⟨[],rfl,fun out => absurd out List.not_mem_nil⟩
  · split
    · generalize (st.icache ip).dev = dev
      have table : ∃ es, Since st (if (st.icache ip).addr ndirect = 0 then
            ((balloc st dev).1,(balloc st dev).2.setAddr ip ndirect (balloc st dev).1)
          else ((st.icache ip).addr ndirect,st)).2 es ∧
          (RunsOut es → (if (st.icache ip).addr ndirect = 0 then
            ((balloc st dev).1,(balloc st dev).2.setAddr ip ndirect (balloc st dev).1)
          else ((st.icache ip).addr ndirect,st)).1 = 4294967295) := by
        split
        · exact balloc_since st dev
        · exact ⟨[],rfl,fun out => absurd out List.not_mem_nil⟩
      generalize (if (st.icache ip).addr ndirect = 0 then
          ((balloc st dev).1,(balloc st dev).2.setAddr ip ndirect (balloc st dev).1)
        else ((st.icache ip).addr ndirect,st)) = r at table ⊢
      obtain ⟨addr,st1⟩ := r
      obtain ⟨es,since,fails⟩ := table
      dsimp only at since fails ⊢
      have asked (gs : List Event) (out : RunsOut es) : AsksBeyond (gs ++ .bread dev addr :: es) := by
        rw [fails out]
        exact ⟨dev,List.mem_append_right _ List.mem_cons_self⟩
      have read : Since st (bread st1 dev addr) (.bread dev addr :: es) := by
        rw [Since,bread_trace,since]
        rfl
      split
      · obtain ⟨fs,since2,fails2⟩ := balloc_since (bread st1 dev addr) dev
        generalize balloc (bread st1 dev addr) dev = r at since2 fails2 ⊢
        obtain ⟨entry,st2⟩ := r
        dsimp only at since2 fails2 ⊢
        have both := read.trans since2
        refine ⟨.brelse dev addr :: .bwrite dev addr (put32 (st2.disk dev addr) (4 * (bn - ndirect)) (BitVec.ofNat 32 entry)) ::
          (fs ++ .bread dev addr :: es),?_,fun out => ?_⟩
        · rw [Since,brelse_trace,bwrite_trace,both]
          rfl
        · have out : RunsOut fs ∨ RunsOut es := by simpa [RunsOut] using out
          rcases out with here | before
          · exact Or.inl (fails2 here)
          · exact Or.inr (asked (_ :: _ :: fs) before)
      · refine ⟨.brelse dev addr :: .bread dev addr :: es,?_,fun out => ?_⟩
        · rw [Since,brelse_trace,read]
          rfl
        · have out : RunsOut es := by simpa [RunsOut] using out
          exact Or.inr (asked [_] out)
    · exact ⟨[.print .bmapRange],rfl,fun out => by simp [RunsOut] at out⟩

theorem writeiLoop_since (src : Buffer) (n fuel : Nat) (st : FsState) (tot off : Nat) :
    ∃ es, Since st (writeiLoop ip src n fuel st tot off).2 es ∧ (RunsOut es → AsksBeyond es) := by
  induction fuel generalizing st tot off with
  | zero => exact ⟨[],rfl,fun out => absurd out List.not_mem_nil⟩
  | succ fuel ih =>
    unfold writeiLoop
    split
    · dsimp only
      obtain ⟨es,since,fails⟩ := bmap_since st ip (off / bsize)
      generalize bmap st ip (off / bsize) = r at since fails ⊢
      obtain ⟨addr,st1⟩ := r
      generalize (st.icache ip).dev = dev
      dsimp only at since fails ⊢
      obtain ⟨fs,since2,asks2⟩ := ih (brelse (bwrite (bread st1 dev addr) dev addr
        (blit ((bread st1 dev addr).disk dev addr) (off % bsize) (min (n - tot) (bsize - off % bsize))
          fun i => src (tot + i))) dev addr) (tot + min (n - tot) (bsize - off % bsize))
        (off + min (n - tot) (bsize - off % bsize))
      refine ⟨_,(since.trans (rewrite_since st1 dev addr _)).trans since2,fun out => ?_⟩
      have out : RunsOut fs ∨ RunsOut es := by simpa [RunsOut] using out
      rcases out with later | here
      · exact (asks2 later).left _
      · refine AsksBeyond.right ?_ fs
        rcases fails here with failure | asks
        · rw [failure]
          exact ⟨dev,by simp⟩
        · exact asks.right [_,_,_]
    · exact ⟨[],rfl,fun out => absurd out List.not_mem_nil⟩

end balloc

/-- The byte of an inode at a position below its size. -/
def readByte (st : FsState) (ip : Slot) (p : Nat) : Option Byte :=
  if (readi st ip zeros p 1).1 = 1 then some ((readi st ip zeros p 1).2.1 0) else none

/-- The addresses that an inode holds, and those in its indirect block. -/
def stored (st : FsState) (ip : Slot) : List Nat :=
  (List.range 13).map (st.icache ip).addr ++
    if (st.icache ip).addr 12 = 0 then []
    else (List.range 128).map fun j => (le32 (st.disk (st.icache ip).dev ((st.icache ip).addr 12)) (4 * j)).toNat

/-- That a full disk is reported: `writei` does not claim success, stores and uses block
numbers of the data area only, and leaves readable what it was not to write. -/
structure Reported (st : FsState) (ip : Slot) (off n : Nat) (r : Int) (st' : FsState) (es : List Event) : Prop where
  short : r ≠ int32 n
  addresses : ∀ a ∈ stored st' ip, a ≠ 0 → st.sb.nmeta ≤ a ∧ a < st.sb.size
  requests : ∀ dev b, .bread dev b ∈ es → b < st.sb.size
  bytes : ∀ s p v, readByte st s p = some v → ¬(s = ip ∧ off ≤ p ∧ p < off + n) → readByte st' s p = some v

/-- When blocks run out, `writei` asks for block `-1` and reports success. -/
theorem writei_since (st : FsState) (ip : Slot) (src : Buffer) (off n : Nat) :
    ∃ es, Since st (writei st ip src off n).2 es ∧
      (RunsOut es → (writei st ip src off n).1 = int32 n ∧ AsksBeyond es) := by
  have quiet (r : Int) : ∃ es, Since st ((r,st) : Int × FsState).2 es ∧ (RunsOut es → r = int32 n ∧ AsksBeyond es) :=
    ⟨[],rfl,fun out => absurd out List.not_mem_nil⟩
  unfold writei
  dsimp only
  split
  · split
    · exact quiet _
    · split
      · exact quiet _
      · exact quiet _
  split
  · exact quiet _
  split
  · exact quiet _
  obtain ⟨es,since,asks⟩ := @writeiLoop_since ip src n n st 0 off
  generalize writeiLoop ip src n n st 0 off = r at since ⊢
  obtain ⟨off',st1⟩ := r
  dsimp only at since ⊢
  split
  · have update : Since st1 (iupdate (st1.setDinode ip { (st1.icache ip).toDinode with size := BitVec.ofNat 32 off' }) ip)
        [.brelse _ _,.bwrite _ _ _,.bread _ _] := rfl
    refine ⟨_,since.trans update,fun out => ⟨rfl,(asks ?_).right _⟩⟩
    simpa [RunsOut] using out
  · exact ⟨es,since,fun out => ⟨rfl,asks out⟩⟩

/-- A full disk is reported exactly when it is not met. -/
theorem full_disk (st : FsState) (ip : Slot) (src : Buffer) (off n : Nat) : ∃ es, Since st (writei st ip src off n).2 es ∧
    ((RunsOut es → Reported st ip off n (writei st ip src off n).1 (writei st ip src off n).2 es) ↔ ¬RunsOut es) ∧
    (RunsOut es → (writei st ip src off n).1 = int32 n ∧ AsksBeyond es) := by
  obtain ⟨es,since,success⟩ := writei_since st ip src off n
  refine ⟨es,since,⟨fun reported out => ?_,fun plenty out => absurd out plenty⟩,success⟩
  exact (reported out).short (success out).1

/-- A disk of 1000 blocks, all marked, with an empty file in use. -/
def fullDisk : FsState where
  disk := fun _ b => if b = 58 then fun _ => 255 else zeros
  sb := ⟨1000,941,200,30,2,32,58⟩
  icache := fun s => ⟨⟨tFile,0,0,1,0,fun _ => 0⟩,1,2,if s = 0 then 1 else 0,true⟩
  stack := zeros
  trace := []

theorem balloc_fullDisk : balloc fullDisk 1 = (4294967295,kprint (brelse (bread fullDisk 1 58) 1 58) .ballocOut) := by
  have taken : ballocBits (fun _ => 255) 0 1000 bpb 0 = none := by
    cases found : ballocBits (fun _ => 255) 0 1000 bpb 0 with
    | none => rfl
    | some bi =>
      have clear := (ballocBits_some found).2.2.2.1
      rw [Volume.bitMask_test] at clear
      have ones (i : Fin 8) : BitVec.getLsbD (255 : Byte) i = true := by
        revert i
        decide
      rw [ones ⟨bi % 8,Nat.mod_lt bi (by decide)⟩] at clear
      cases clear
  have scan : ballocBits ((bread fullDisk 1 (fullDisk.sb.bblock 0)).disk 1 (fullDisk.sb.bblock 0)) 0
      (bread fullDisk 1 (fullDisk.sb.bblock 0)).sb.size bpb 0 = none := taken
  change ballocBlocks 1 1 fullDisk 0 = _
  unfold ballocBlocks
  rw [if_pos (by decide)]
  dsimp only
  rw [scan]
  rfl

/-- What the first `bmap` of a write leaves in the log is there at the end. -/
theorem writei_mapped {st : FsState} {ip : Slot} (src : Buffer) {off n : Nat} (regular : (st.icache ip).type ≠ tDev)
    (inside : ¬(off > (st.icache ip).size.toNat ∨ u32 (off + n) < off)) (small : ¬u32 (off + n) > maxfile * bsize)
    (some_left : 0 < n) : (bmap st ip (off / bsize)).2.trace <:+ (writei st ip src off n).2.trace := by
  have loop : (bmap st ip (off / bsize)).2.trace <:+ (writeiLoop ip src n n st 0 off).2.trace := by
    obtain ⟨fuel,rfl⟩ := Nat.exists_eq_add_one.mpr some_left
    unfold writeiLoop
    rw [if_pos some_left]
    dsimp only
    generalize bmap st ip (off / bsize) = r
    obtain ⟨addr,st1⟩ := r
    dsimp only
    refine List.IsSuffix.trans ?_ (writeiLoop_local ip src _ fuel _ _ _).trace
    exact (((emit_io st1 _).trans (bwrite_io _ _ _ _)).trans (emit_io _ _)).trace
  unfold writei
  rw [if_neg regular,if_neg inside,if_neg small]
  generalize writeiLoop ip src n n st 0 off = r at loop ⊢
  obtain ⟨off',st1⟩ := r
  dsimp only at loop ⊢
  split
  · exact loop.trans (iupdate_io (st1.setDinode ip _) ip).trace
  · exact loop

/-- One byte written to the empty file: success is reported. -/
theorem full_disk_unreported : ∃ st ip src off n es, Since st (writei st ip src off n).2 es ∧ RunsOut es ∧
    ¬Reported st ip off n (writei st ip src off n).1 (writei st ip src off n).2 es := by
  obtain ⟨es,since,success⟩ := writei_since fullDisk 0 zeros 0 1
  have mapped : bmap fullDisk 0 0 = (4294967295,
      (kprint (brelse (bread fullDisk 1 58) 1 58) .ballocOut).setAddr 0 0 4294967295) := by
    have dev : (fullDisk.icache 0).dev = 1 := rfl
    unfold bmap
    dsimp only
    rw [if_pos (by decide),if_pos (by decide),dev,balloc_fullDisk]
  have grown := @writei_mapped fullDisk 0 zeros 0 1 (by decide) (by decide) (by decide)
    (by decide)
  rw [show 0 / bsize = 0 from rfl,mapped,since,show fullDisk.trace = [] from rfl,List.append_nil] at grown
  have out : RunsOut es := grown.subset List.mem_cons_self
  exact ⟨fullDisk,0,zeros,0,1,es,since,out,fun reported => reported.short (success out).1⟩

end Lxos.Fs
