import Lxos.Fs.Lookup
import Lxos.Fs.Held

/-! Directories read as they are found on the disk. An entry in a hole is free, and
looking at it gives the hole a block; where there is no hole nothing changes. -/
namespace Lxos.Fs
open Lxos.Bytes

/-- The file in slot `ip` was read. -/
structure Seen (dev : Nat) (ip : Slot) (st st' : FsState) : Prop where
  grown : Grown dev ip st st'
  idle : (st.volume dev).Filled (st.icache ip).inum → Idle st st'

section seen
variable {dev : Nat} {ip dp : Slot} {st st' st'' : FsState}

theorem Seen.refl (ready : Ready dev ip st) : Seen dev ip st st := ⟨Grown.refl ready,fun _ => Idle.refl st⟩

theorem Seen.trans (first : Seen dev ip st st') (second : Seen dev ip st' st'') : Seen dev ip st st'' := by
  refine ⟨first.grown.trans second.grown,fun filled => ?_⟩
  have idle := first.idle filled
  refine idle.trans (second.idle ?_)
  rw [idle.volume,idle.icache]
  exact filled

theorem Idle.seen (ready : Ready dev ip st) (idle : Idle st st') : Seen dev ip st st' := by
  have io : DiskOnly st st' := ⟨idle.icache,idle.stack,idle.trace⟩
  exact ⟨Grown.quiet ready (io.toLocal ip) idle.volume,fun _ => idle⟩

theorem Seen.filled (seen : Seen dev ip st st') (filled : (st.volume dev).Filled (st.icache ip).inum) :
    (st'.volume dev).Filled (st'.icache ip).inum := by
  have idle := seen.idle filled
  rw [idle.volume,idle.icache]
  exact filled

/-- A read of a file without holes, or one that found the blocks that it needed. -/
theorem readi_seen (ready : Ready dev ip st) (dst : Buffer) (off : Nat) {n : Nat} (width : n < 4294967296)
    (clear : (st.volume dev).Filled (st.icache ip).inum ∨ (readi st ip dst off n).2.2.exhausted = false) :
    Seen dev ip st (readi st ip dst off n).2.2 ∧ ((readi st ip dst off n).1,(readi st ip dst off n).2.1) =
      readResult ((st.volume dev).inode (st.icache ip).inum) ((st.volume dev).byte (st.icache ip).inum) dst off n := by
  rcases clear with filled | enough
  · obtain ⟨idle,value⟩ := readi_filled ready filled dst off width
    exact ⟨idle.seen ready,value⟩
  · obtain ⟨grown,value⟩ := readi_spec ready dst off n enough
    exact ⟨⟨grown,fun filled => readi_idle ready filled dst off width⟩,value⟩

/-- A read that returns as much as was asked for. -/
theorem readi_whole {n : Nat} (ready : Ready dev ip st) (dst : Buffer) (off : Nat) (positive : 0 < n) (small : n < 2147483648)
    (clear : (st.volume dev).Filled (st.icache ip).inum ∨ (readi st ip dst off n).2.2.exhausted = false)
    (whole : (readi st ip dst off n).1 = n) :
    Seen dev ip st (readi st ip dst off n).2.2 ∧ off + n < 4294967296 ∧
      (readi st ip dst off n).2.1 = blit dst 0 n fun i => (st.volume dev).byte (st.icache ip).inum (off + i) := by
  obtain ⟨seen,value⟩ := readi_seen ready dst off (by omega) clear
  have width := ((st.volume dev).inode (st.icache ip).inum).size.isLt
  unfold readResult at value
  refine ⟨seen,?_⟩
  split at value
  · rw [(Prod.mk.inj value).1] at whole
    omega
  split at value
  · rw [(Prod.mk.inj value).1] at whole
    omega
  rename_i accepted
  obtain ⟨count,bytes⟩ := Prod.mk.inj value
  rw [count] at whole
  have wrap : off + n < 4294967296 := by
    unfold u32 at accepted
    omega
  rw [u32_of_lt wrap] at whole bytes
  refine ⟨wrap,?_⟩
  rw [bytes]
  split at whole
  · -- The end of the file is reached before `n` bytes.
    unfold int32 at whole
    split at whole <;> omega
  · rename_i inside
    rw [if_neg inside]

theorem Seen.byte (seen : Seen dev ip st st') : (st'.volume dev).byte = (st.volume dev).byte := seen.grown.byte

theorem Seen.inum (seen : Seen dev ip st st') : (st'.icache ip).inum = (st.icache ip).inum := by
  rw [seen.grown.change.inum]

theorem Seen.clear {st'' : FsState} (seen : Seen dev ip st st')
    (clear : (st.volume dev).Filled (st.icache ip).inum ∨ st''.exhausted = false) :
    (st'.volume dev).Filled (st'.icache ip).inum ∨ st''.exhausted = false := clear.imp_left seen.filled

/-- The directory in slot `dp` consists of whole entries. -/
structure Scan (dev : Nat) (dp : Slot) (st : FsState) : Prop where
  ready : Ready dev dp st
  type : (st.icache dp).type = tDir
  whole : 16 ∣ (st.icache dp).size.toNat
  small : (st.icache dp).size.toNat ≤ 71680

/-- Reading changes addresses only. -/
theorem Grown.copy (grown : Grown dev ip st st') (ready : Ready dev ip st) :
    ∃ addrs, (st'.icache ip).toDinode = { (st.icache ip).toDinode with addrs := addrs } := by
  obtain ⟨addrs,attrs⟩ := grown.attrs
  have ready' := grown.ready ready
  have copy' := FsState.volume_locked ready'.unique ready'.locked ready'.place
  rw [grown.change.inum,attrs,FsState.volume_locked ready.unique ready.locked ready.place] at copy'
  exact ⟨addrs,copy'.symm⟩

theorem Scan.seen (scan : Scan dev dp st) (seen : Seen dev dp st st') : Scan dev dp st' := by
  obtain ⟨addrs,copy⟩ := seen.grown.copy scan.ready
  refine ⟨seen.grown.ready scan.ready,?_,?_,?_⟩
  · rw [copy]
    exact scan.type
  · rw [copy]
    exact scan.whole
  · rw [copy]
    exact scan.small

theorem Seen.size (seen : Seen dev dp st st') (ready : Ready dev dp st) : (st'.icache dp).size = (st.icache dp).size := by
  obtain ⟨addrs,copy⟩ := seen.grown.copy ready
  rw [copy]

theorem Scan.entry (scan : Scan dev dp st) (de : Buffer) {j : Nat} (inside : 16 * j < (st.icache dp).size.toNat)
    (clear : (st.volume dev).Filled (st.icache dp).inum ∨
      (readi st dp de (16 * j) direntSize).2.2.exhausted = false) :
    Seen dev dp st (readi st dp de (16 * j) direntSize).2.2 ∧
      (readi st dp de (16 * j) direntSize).1 = (direntSize : Nat) ∧
      ∀ i < 16, (readi st dp de (16 * j) direntSize).2.1 i =
        entryAt ((st.volume dev).byte (st.icache dp).inum) j i := by
  obtain ⟨c,whole⟩ := scan.whole
  have small := scan.small
  have regular : (st.icache dp).type ≠ tDev := by
    rw [scan.type]
    decide
  have sum : u32 (16 * j + direntSize) = 16 * j + 16 := u32_of_lt (by change 16 * j + 16 < _; omega)
  obtain ⟨seen,value⟩ := readi_seen scan.ready de (16 * j) (by decide) clear
  unfold readResult at value
  rw [FsState.volume_locked scan.ready.unique scan.ready.locked scan.ready.place,if_neg regular,sum,
    if_neg (by omega),if_neg (by omega)] at value
  obtain ⟨count,bytes⟩ := Prod.mk.inj value
  refine ⟨seen,count,fun i h => ?_⟩
  have copied := @blit_inside de (fun i => (st.volume dev).byte (st.icache dp).inum (16 * j + i)) 0 16 i h
  rw [Nat.zero_add] at copied
  rw [bytes]
  exact copied

/-- What a lookup of `name` from entry `j` on may answer. -/
def Looked (dev : Nat) (dp : Slot) (name : Buffer) (j : Nat) (st : FsState) : Option (Slot × Nat) × FsState → Prop
  | (none,st') => Seen dev dp st st' ∧ ∀ l ≥ j, 16 * l < (st.icache dp).size.toNat →
      ¬Matches ((st.volume dev).byte (st.icache dp).inum) name l
  | (some (ip,off),st') => ∃ st1 i, Seen dev dp st st1 ∧ 16 * i < (st.icache dp).size.toNat ∧ off = 16 * i ∧
      Matches ((st.volume dev).byte (st.icache dp).inum) name i ∧
      (∀ l, j ≤ l → l < i → ¬Matches ((st.volume dev).byte (st.icache dp).inum) name l) ∧
      iget st1 dev (le16 (entryAt ((st.volume dev).byte (st.icache dp).inum) i) 0).toNat = .ok (ip,st')

theorem Looked.later {name : Buffer} {j : Nat} {r : Option (Slot × Nat) × FsState} (ready : Ready dev dp st)
    (seen : Seen dev dp st st') (here : ¬Matches ((st.volume dev).byte (st.icache dp).inum) name j)
    (looked : Looked dev dp name (j + 1) st' r) : Looked dev dp name j st r := by
  have bytes : (st'.volume dev).byte (st'.icache dp).inum = (st.volume dev).byte (st.icache dp).inum := by
    rw [seen.grown.byte,seen.grown.change.inum]
  have size := seen.size ready
  match r, looked with
  | (none,_), looked =>
    obtain ⟨rest,absent⟩ := looked
    rw [bytes,size] at absent
    refine ⟨seen.trans rest,fun l low inside => ?_⟩
    rcases Nat.eq_or_lt_of_le low with rfl | more
    · exact here
    · exact absent l more inside
  | (some (_,_),_), looked =>
    obtain ⟨st1,i,rest,inside,place,found,first,got⟩ := looked
    rw [bytes] at found first got
    rw [size] at inside
    refine ⟨st1,i,seen.trans rest,inside,place,found,fun l low less => ?_,got⟩
    rcases Nat.eq_or_lt_of_le low with rfl | more
    · exact here
    · exact first l more less

/-- One round of the loops over a directory, whichever message it may print. -/
theorem readEntry_trace (st : FsState) (dp : Slot) (de : Buffer) (off : Nat) (m : Message) :
    st.trace <:+ (if (readi st dp de off direntSize).1 ≠ ((direntSize : Nat) : Int) then
      kprint (readi st dp de off direntSize).2.2 m else (readi st dp de off direntSize).2.2).trace := by
  have read := (readi_mapped st dp de off direntSize).trace
  split
  · exact read.trans (List.suffix_cons _ _)
  · exact read

theorem dirlookupLoop_trace {name : Buffer} (fuel : Nat) (st : FsState) (de : Buffer) (off : Nat)
    {r : Option (Slot × Nat) × FsState} (ok : dirlookupLoop dp name fuel st de off = .ok r) : st.trace <:+ r.2.trace := by
  induction fuel generalizing st de off with
  | zero => cases ok
  | succ fuel ih =>
    rw [dirlookupLoop] at ok
    split at ok
    · have round := readEntry_trace st dp de off .dirlookupRead
      generalize readi st dp de off direntSize = read at ok round
      obtain ⟨count,de1,st1⟩ := read
      dsimp only at ok round
      generalize (if count ≠ ((direntSize : Nat) : Int) then kprint st1 .dirlookupRead else st1) = st2 at ok round
      split at ok
      · exact round.trans (ih _ _ _ ok)
      · split at ok
        · generalize found : iget st2 (st2.icache dp).dev (le16 de1 0).toNat = got at ok
          cases got with
          | error e => cases ok
          | ok slot =>
            cases ok
            change _ <:+ slot.2.trace
            rw [(iget_got found).trace]
            exact round
        · exact round.trans (ih _ _ _ ok)
    · cases ok
      exact List.suffix_refl _

theorem dirlookupLoop_looked {name : Buffer} (fuel : Nat) (scan : Scan dev dp st) (de : Buffer) {j : Nat}
    {r : Option (Slot × Nat) × FsState} (ok : dirlookupLoop dp name fuel st de (16 * j) = .ok r)
    (clear : (st.volume dev).Filled (st.icache dp).inum ∨ r.2.exhausted = false) : Looked dev dp name j st r := by
  induction fuel generalizing st de j with
  | zero => cases ok
  | succ fuel ih =>
    rw [dirlookupLoop] at ok
    split at ok
    · rename_i inside
      have small := scan.small
      have next : u32 (16 * j + direntSize) = 16 * (j + 1) := u32_of_lt (by change 16 * j + 16 < _; omega)
      have entry := scan.entry de inside
      rw [next] at ok
      generalize readi st dp de (16 * j) direntSize = read at ok entry
      obtain ⟨count,de1,st1⟩ := read
      dsimp only at ok entry
      have free (enough : r.2.exhausted = false) : st1.exhausted = false := by
        by_contra full
        have message : (if count ≠ ((direntSize : Nat) : Int) then kprint st1 .dirlookupRead else st1).exhausted = false →
            st1.exhausted = false := by
          refine exhausted_of_suffix ?_
          split
          · exact List.suffix_cons _ _
          · exact List.suffix_refl _
        generalize (if count ≠ ((direntSize : Nat) : Int) then kprint st1 .dirlookupRead else st1) = st2 at ok message
        refine full (message ?_)
        split at ok
        · exact exhausted_of_suffix (dirlookupLoop_trace fuel st2 de1 _ ok) enough
        · split at ok
          · generalize found : iget st2 (st2.icache dp).dev (le16 de1 0).toNat = got at ok
            cases got with
            | error e => cases ok
            | ok slot =>
              cases ok
              refine exhausted_of_suffix ?_ enough
              change _ <:+ slot.2.trace
              rw [(iget_got found).trace]
          · exact exhausted_of_suffix (dirlookupLoop_trace fuel st2 de1 _ ok) enough
      obtain ⟨seen,length,bytes⟩ := entry (clear.imp_right free)
      obtain ⟨number,title⟩ := entry_matches bytes
      have clear1 := clear.imp_left seen.filled
      have quiet : (if count ≠ ((direntSize : Nat) : Int) then kprint st1 .dirlookupRead else st1) = st1 :=
        if_neg (fun h => h length)
      have device : (st1.icache dp).dev = dev := (seen.grown.ready scan.ready).locked.2.1
      rw [quiet,number,device] at ok
      by_cases unused : le16 (entryAt ((st.volume dev).byte (st.icache dp).inum) j) 0 = 0
      · rw [if_pos unused] at ok
        exact (ih (scan.seen seen) de1 ok clear1).later scan.ready seen (fun h => h.1 unused)
      · rw [if_neg unused] at ok
        by_cases same : namecmp name (deName de1) = 0
        · rw [if_pos same] at ok
          generalize found : iget st1 dev _ = got at ok
          cases got with
          | error e => cases ok
          | ok slot =>
            cases ok
            exact ⟨st1,j,seen,inside,rfl,⟨unused,((namecmp_zero _ _).mp same).trans title⟩,
              fun l low less => absurd low (Nat.not_le.mpr less),found⟩
        · rw [if_neg same] at ok
          exact (ih (scan.seen seen) de1 ok clear1).later scan.ready seen
            (fun h => same ((namecmp_zero _ _).mpr (h.2.trans title.symm)))
    · rename_i last
      cases ok
      exact ⟨Seen.refl scan.ready,fun l low inside => by omega⟩

/-- The search ends: a file has at most 4480 entries. -/
theorem dirlookupLoop_total {name : Buffer} (fuel : Nat) (small : (st.icache dp).size.toNat ≤ 71680)
    (spare : ∃ s, (st.icache s).ref = 0) (de : Buffer) {j : Nat} (within : j ≤ 4480) (enough : 4480 < j + fuel) :
    ∃ r, dirlookupLoop dp name fuel st de (16 * j) = .ok r := by
  induction fuel generalizing st de j with
  | zero => omega
  | succ fuel ih =>
    rw [dirlookupLoop]
    split
    · rename_i inside
      have next : u32 (16 * j + direntSize) = 16 * (j + 1) := u32_of_lt (by change 16 * j + 16 < _; omega)
      have round := readEntry_mapped st dp de (16 * j) .dirlookupRead
      rw [next]
      generalize readi st dp de (16 * j) direntSize = read at round ⊢
      obtain ⟨count,de1,st1⟩ := read
      dsimp only at round ⊢
      generalize (if count ≠ ((direntSize : Nat) : Int) then kprint st1 .dirlookupRead else st1) = st2 at round ⊢
      have size : (st2.icache dp).size = (st.icache dp).size := by
        obtain ⟨addrs,same⟩ := round.self
        rw [same]
      have spare2 : ∃ s, (st2.icache s).ref = 0 := by
        obtain ⟨s,zero⟩ := spare
        exact ⟨s,by rw [round.toLocal.ref]; exact zero⟩
      have later := ih (size ▸ small) spare2 de1 (j := j + 1) (by omega) (by omega)
      split
      · exact later
      · split
        · obtain ⟨ip,st3,got⟩ := @iget_ok (st2.icache dp).dev (le16 de1 0).toNat st2 spare2
          rw [got]
          exact ⟨_,rfl⟩
        · exact later
    · exact ⟨_,rfl⟩

theorem Scan.total (scan : Scan dev dp st) (spare : ∃ s, (st.icache s).ref = 0) (name : Buffer) :
    ∃ r, dirlookup st dp name = .ok r := by
  unfold dirlookup
  rw [if_neg (fun h => h scan.type)]
  exact dirlookupLoop_total _ scan.small spare st.stack (Nat.zero_le _) (by decide)

theorem dirlookup_looked {name : Buffer} (scan : Scan dev dp st) {r : Option (Slot × Nat) × FsState}
    (ok : dirlookup st dp name = .ok r) (clear : (st.volume dev).Filled (st.icache dp).inum ∨ r.2.exhausted = false) :
    Looked dev dp name 0 st r := by
  unfold dirlookup at ok
  rw [if_neg (fun h => h scan.type)] at ok
  exact dirlookupLoop_looked _ scan st.stack ok clear

/-- Where `dirlink` puts its entry: at the first free one, or at the end. -/
structure Place (dev : Nat) (dp : Slot) (i : Nat) (st : FsState) : Prop where
  within : 16 * i ≤ (st.icache dp).size.toNat
  free : 16 * i < (st.icache dp).size.toNat → le16 (entryAt ((st.volume dev).byte (st.icache dp).inum) i) 0 = 0
  first : ∀ l < i, le16 (entryAt ((st.volume dev).byte (st.icache dp).inum) l) 0 ≠ 0

theorem dirlinkLoop_trace (fuel : Nat) (st : FsState) (de : Buffer) (off : Nat) {r : Nat × FsState}
    (ok : dirlinkLoop dp fuel st de off = .ok r) : st.trace <:+ r.2.trace := by
  induction fuel generalizing st de off with
  | zero => cases ok
  | succ fuel ih =>
    rw [dirlinkLoop] at ok
    split at ok
    · have round := readEntry_trace st dp de off .dirlinkRead
      dsimp only at ok
      split at ok
      · cases ok
        exact round
      · exact round.trans (ih _ _ _ ok)
    · cases ok
      exact List.suffix_refl _

theorem dirlinkLoop_place (fuel : Nat) (scan : Scan dev dp st) (de : Buffer) {j : Nat} {r : Nat × FsState}
    (within : 16 * j ≤ (st.icache dp).size.toNat)
    (used : ∀ l < j, le16 (entryAt ((st.volume dev).byte (st.icache dp).inum) l) 0 ≠ 0)
    (ok : dirlinkLoop dp fuel st de (16 * j) = .ok r)
    (clear : (st.volume dev).Filled (st.icache dp).inum ∨ r.2.exhausted = false) : Seen dev dp st r.2 ∧ ∃ i, r.1 = 16 * i ∧ Place dev dp i st := by
  induction fuel generalizing st de j with
  | zero => cases ok
  | succ fuel ih =>
    rw [dirlinkLoop] at ok
    split at ok
    · rename_i inside
      obtain ⟨c,whole⟩ := scan.whole
      have small := scan.small
      have next : u32 (16 * j + direntSize) = 16 * (j + 1) := u32_of_lt (by change 16 * j + 16 < _; omega)
      have entry := scan.entry de inside
      rw [next] at ok
      generalize readi st dp de (16 * j) direntSize = read at ok entry
      obtain ⟨count,de1,st1⟩ := read
      dsimp only at ok entry
      have free (enough : r.2.exhausted = false) : st1.exhausted = false := by
        have message : st1.trace <:+ (if count ≠ ((direntSize : Nat) : Int) then kprint st1 .dirlinkRead else st1).trace := by
          split
          · exact List.suffix_cons _ _
          · exact List.suffix_refl _
        refine exhausted_of_suffix (message.trans ?_) enough
        split at ok
        · cases ok
          exact List.suffix_refl _
        · exact dirlinkLoop_trace fuel _ de1 _ ok
      obtain ⟨seen,length,bytes⟩ := entry (clear.imp_right free)
      have quiet : (if count ≠ ((direntSize : Nat) : Int) then kprint st1 .dirlinkRead else st1) = st1 :=
        if_neg (fun h => h length)
      have same : (st1.volume dev).byte (st1.icache dp).inum = (st.volume dev).byte (st.icache dp).inum := by
        rw [seen.grown.byte,seen.grown.change.inum]
      have size := seen.size scan.ready
      rw [quiet,(entry_matches bytes).1] at ok
      split at ok
      · rename_i unused
        cases ok
        exact ⟨seen,j,rfl,within,fun _ => unused,used⟩
      · rename_i taken
        obtain ⟨rest,i,off,place⟩ := ih (scan.seen seen) de1 (j := j + 1) (by rw [size]; omega)
          (fun l low => by
            rw [same]
            rcases Nat.lt_succ_iff_lt_or_eq.mp low with less | rfl
            · exact used l less
            · exact taken) ok (clear.imp_left seen.filled)
        refine ⟨seen.trans rest,i,off,?_,?_,?_⟩
        · rw [← size]
          exact place.within
        · rw [← size,← same]
          exact place.free
        · rw [← same]
          exact place.first
    · rename_i last
      cases ok
      exact ⟨Seen.refl scan.ready,j,rfl,within,fun h => absurd h last,used⟩

end seen

end Lxos.Fs
