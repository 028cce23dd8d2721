import Lxos.Files.Walk
import Lxos.Fs.Packing

/-! New names. `dirlink` writes the record of a name over the first free entry of its
directory, or behind the last one; `create` takes the first inode without a type for it. -/
namespace Lxos.Files
open Lxos.Bytes Lxos.Fs Lxos.Kernel Lxos.Outcome Lxos.Places

section record
variable {name : Buffer} {n : Nat}

theorem cstring_length (s : Buffer) (n o : Nat) : (cstring s n o).length ≤ n := by
  induction n generalizing o with
  | zero => exact le_refl 0
  | succ n ih =>
    unfold cstring
    split
    · exact Nat.zero_le _
    · exact Nat.succ_le_succ (ih (o + 1))

theorem cname_length (s : Buffer) : (cname s).length ≤ dirsiz := cstring_length s dirsiz 0

/-- `strncpy` copies the string and fills up with zeros. -/
theorem strncpyFrom_string (t s : Buffer) (n o : Nat) {i : Nat} (low : o ≤ i) (high : i < o + n) :
    strncpyFrom t s n o i = bytes (cstring t n o) (i - o) := by
  induction n generalizing s o with
  | zero => omega
  | succ n ih =>
    have first : blit s o 1 (fun _ => t o) o = t o := @blit_inside s (fun _ => t o) o 1 0 (by omega)
    unfold strncpyFrom cstring
    dsimp only
    by_cases stop : t o = 0
    · rw [if_neg (not_not.mpr stop),if_pos stop,strncpyZero_spec]
      rcases Nat.eq_or_lt_of_le low with rfl | later
      · rw [if_neg (by omega),first,stop]
        rfl
      · rw [if_pos (by omega)]
        rfl
    · rw [if_pos stop,if_neg stop]
      rcases Nat.eq_or_lt_of_le low with rfl | later
      · rw [strncpyFrom_before _ _ _ _ (Nat.lt_succ_self o),first,Nat.sub_self]
        rfl
      · rw [ih _ _ later (by omega)]
        obtain ⟨j,rfl⟩ : ∃ j, i = o + 1 + j := ⟨i - (o + 1),by omega⟩
        have here : o + 1 + j - o = j + 1 := by omega
        rw [Nat.add_sub_cancel_left,here]
        rfl

/-- The entry that `dirlink` writes is the record of the name. -/
theorem taken_dirent (width : n < 65536) : taken (direntBytes name n) direntSize = record (cname name) n := by
  have small := cname_length name
  have value : (BitVec.ofNat 16 n).toNat = n := by
    rw [BitVec.toNat_ofNat]
    exact Nat.mod_eq_of_lt width
  have length : (record (cname name) n).length = direntSize := by
    unfold record
    rw [List.length_cons,List.length_cons,List.length_append,List.length_replicate]
    change (cname name).length + (14 - (cname name).length) + 1 + 1 = 16
    change (cname name).length ≤ 14 at small
    omega
  refine data_ext (taken_length.trans length.symm) fun o inside => ?_
  rw [length] at inside
  rw [bytes_taken inside]
  unfold direntBytes put16
  match o, inside with
  | 0, _ =>
    have head := @blit_inside (blit zeros 2 dirsiz (strncpy zeros name dirsiz)) (digit (BitVec.ofNat 16 n).toNat) 0 2 0 (by omega)
    rw [Nat.zero_add] at head
    rw [head,value]
    unfold digit
    rw [pow_zero,Nat.div_one]
    rfl
  | 1, _ =>
    have head := @blit_inside (blit zeros 2 dirsiz (strncpy zeros name dirsiz)) (digit (BitVec.ofNat 16 n).toNat) 0 2 1 (by omega)
    rw [Nat.zero_add] at head
    rw [head,value]
    unfold digit
    rw [pow_one]
    rfl
  | o + 2, inside =>
    have inside : o < 14 := by
      change o + 2 < 16 at inside
      omega
    have there : blit zeros 2 dirsiz (strncpy zeros name dirsiz) (o + 2) = strncpy zeros name dirsiz o := by
      rw [Nat.add_comm o 2]
      exact blit_inside inside
    rw [blit_outside (by omega),there]
    unfold strncpy
    rw [strncpyFrom_string name zeros dirsiz 0 (Nat.zero_le o) (by change o < 0 + 14; omega)]
    change bytes (cname name) o = bytes (cname name ++ List.replicate (dirsiz - (cname name).length) 0) o
    by_cases short : o < (cname name).length
    · exact (bytes_append short).symm
    · rw [bytes_past (Nat.not_lt.mp short)]
      unfold bytes
      rw [List.getD_append_right _ _ _ _ (Nat.not_lt.mp short)]
      simp [List.getD_eq_getElem?_getD,List.getElem?_replicate]
      split <;> rfl

end record

section link
variable {strict : Prop} {loose : Nat → Prop} {st st' : FsState} {dp ip : Slot} {name : Buffer} {elem : List Byte}
  {n i : Nat} {type major minor : BitVec 16}

/-- The place that `dirlink` finds is the vacancy of the directory. -/
theorem vacancy_place (ready : Ready rootdev dp st) (whole : 16 ∣ (st.icache dp).size.toNat)
    (place : Place rootdev dp i st) : vacancy (nodes st (st.icache dp).inum).data = i := by
  obtain ⟨within,free,first⟩ := place
  obtain ⟨c,whole⟩ := whole
  have size : ((st.volume rootdev).inode (st.icache dp).inum).size.toNat = 16 * c := by
    rw [ready.copy]
    exact whole
  have length : (nodes st (st.icache dp).inum).data.length / 16 = c := by
    unfold nodes
    rw [node_length,size]
    omega
  have entry (j : Nat) (low : j < c) : (table (bytes (nodes st (st.icache dp).inum).data) j).isNone = true ↔
      le16 (entryAt ((st.volume rootdev).byte (st.icache dp).inum) j) 0 = 0 := by
    unfold nodes
    rw [node_table (by rw [size]; omega)]
    unfold table
    split
    · rename_i zero
      exact iff_of_true rfl zero
    · rename_i some
      exact iff_of_false Bool.false_ne_true some
  unfold vacancy
  rw [length]
  rcases Nat.lt_or_ge i c with inside | last
  · have found : (List.range c).find? (fun j => (table (bytes (nodes st (st.icache dp).inum).data) j).isNone) = some i := by
      refine List.find?_range_eq_some.mpr ⟨(entry i inside).mpr (free (by omega)),List.mem_range.mpr inside,fun j before => ?_⟩
      rw [Bool.not_eq_true',← Bool.not_eq_true,entry j (by omega)]
      exact first j before
    rw [found]
    rfl
  · have missing : (List.range c).find? (fun j => (table (bytes (nodes st (st.icache dp).inum).data) j).isNone) = none := by
      refine List.find?_range_eq_none.mpr fun j before => ?_
      rw [Bool.not_eq_true',← Bool.not_eq_true,entry j before]
      exact first j (by omega)
    rw [missing]
    change c = i
    omega

/-- `dirlink` of a new name. The directory does not grow past its largest size, which is not reported. -/
theorem nodes_linked (lawful : Lawful strict loose st) (ready : Ready rootdev dp st) (directory : (st.icache dp).type = tDir)
    (absent : (st.volume rootdev).entry (st.icache dp).inum (cname name) = none) (width : n < 65536) {r : Int × FsState}
    (ok : dirlink st dp name n = .ok r) (enough : r.2.exhausted = false) :
    r.1 = 0 ∧ (∀ s, (r.2.icache s).inum = (st.icache s).inum) ∧ nodes r.2 =
      Function.update (nodes st) (st.icache dp).inum ((nodes st (st.icache dp).inum).linked (cname name) n) := by
  have scan := lawful.scan ready directory
  have title : cname name = (cname name).take dirsiz := (List.take_of_length_le (cname_length name)).symm
  unfold dirlink at ok
  cases looking : dirlookup st dp name with
  | error e =>
    rw [looking] at ok
    cases ok
  | ok answer =>
    rw [looking] at ok
    obtain ⟨_ | ⟨ip,off⟩,st1⟩ := answer
    swap
    · -- The name would have been there.
      obtain rfl := Except.ok.inj ok
      have found := entry_looked scan looking (exhausted_of_suffix (iput_trace st1 ip) enough) title
      rw [absent] at found
      cases found
    dsimp only at ok
    cases looping : dirlinkLoop dp (entries + 1) st1 st1.stack 0 with
    | error e =>
      rw [looping] at ok
      cases ok
    | ok place =>
      obtain ⟨off,st2⟩ := place
      rw [looping] at ok
      obtain rfl := Except.ok.inj ok
      have quiet := kprint_quiet (writei st2 dp (direntBytes name n) off direntSize).2
        ((writei st2 dp (direntBytes name n) off direntSize).1 ≠ ((direntSize : Nat) : Int))
        (show Message.dirlinkWrite ≠ .ballocOut ∧ Message.dirlinkWrite ≠ .iallocOut by decide)
      dsimp only at enough quiet ⊢
      have free3 : (writei st2 dp (direntBytes name n) off direntSize).2.exhausted = false :=
        exhausted_of_suffix quiet.trace enough
      have free2 : st2.exhausted = false := exhausted_of_suffix (writei_local st2 dp _ off direntSize).trace free3
      have free1 : st1.exhausted = false := exhausted_of_suffix (dirlinkLoop_trace _ st1 st1.stack 0 looping) free2
      obtain ⟨seen1,_⟩ := dirlookup_looked scan looking (Or.inr free1)
      obtain ⟨lawful1,_⟩ := seen1.lawful lawful ready
      obtain ⟨_,_,type1⟩ := seen1.entries ready
      have ready1 := seen1.grown.ready ready
      have scan1 := lawful1.scan ready1 (type1.trans directory)
      obtain ⟨seen2,i,rfl,place⟩ := dirlinkLoop_place (j := 0) _ scan1 st1.stack
        (Nat.zero_le _) (fun l low => absurd low (Nat.not_lt_zero l)) looping (Or.inr free2)
      obtain ⟨_,size2,type2⟩ := seen2.entries ready1
      have ready2 := seen2.grown.ready ready1
      have number1 := seen1.grown.change.inum
      have number2 := seen2.grown.change.inum
      have number3 := (writei_local st2 dp (direntBytes name n) (16 * i) direntSize).inum
      have nodes2 : nodes st2 = nodes st := (nodes_seen seen2).trans (nodes_seen seen1)
      have vacant := vacancy_place ready1 scan1.whole place
      rw [nodes_seen seen1,number1] at vacant
      have regular : (st2.icache dp).type ≠ tDev := by
        rw [type2,type1,directory]
        decide
      have within : 16 * i ≤ (st2.icache dp).size.toNat := by
        rw [size2]
        exact place.within
      refine ⟨rfl,fun s => ?_,(nodes_congr quiet.volume).trans ?_⟩
      · rw [quiet.icache,number3,number2,number1]
      · unfold Node.linked
        rw [vacant]
        split
        · rename_i room
          have patched : Patched rootdev dp (direntBytes name n) (16 * i) direntSize st2 _ :=
            (writei_patched ready2 regular within room free3).2
          have bytes : taken (direntBytes name n) 16 = record (cname name) n := taken_dirent width
          rw [nodes_overlaid patched.overlaid (by rw [ready2.copy]; exact within),nodes2,number2,number1,bytes]
        · rename_i full
          have refused : writei st2 dp (direntBytes name n) (16 * i) direntSize = (-1,st2) :=
            writei_refused regular (by decide) (Or.inr (Nat.lt_of_not_le full))
          rw [refused,nodes2,Function.update_eq_self]

/-- The types on the disk tell which nodes are free. -/
theorem node_unused (lawful : Lawful strict loose st) {s : Service} (node : s.node = nodes st) {j : Nat}
    (inside : j < st.sb.ninodes) : (s.node j).type = 0 ↔ (st.table rootdev j).type = 0 := by
  have slots : st.sb.ninodes ≤ st.sb.slots := lawful.volume.sound.layout.count
  rw [node]
  change ((st.volume rootdev).inode j).type = 0 ↔ _
  by_cases tight : loose j
  · refine iff_of_false (fun zero => ?_) (lawful.stored j tight)
    rw [lawful.volume.directory j tight] at zero
    cases zero
  · rw [lawful.dinode (by omega) tight]

/-- The inodes that `ialloc` passes have a type. -/
theorem free_found (lawful : Lawful strict loose st) (first : FirstFree st rootdev n) {s : Service} (node : s.node = nodes st)
    (count : s.ninodes = st.sb.ninodes) : s.free = some n := by
  unfold Service.free
  rw [count]
  refine List.find?_range_eq_some.mpr ⟨?_,List.mem_range.mpr first.bound,fun j before => ?_⟩
  · exact decide_eq_true ⟨first.positive,(node_unused lawful node first.bound).mpr first.free⟩
  · rw [Bool.not_eq_true',decide_eq_false_iff_not]
    rintro ⟨low,zero⟩
    exact first.first j low before ((node_unused lawful node (before.trans first.bound)).mp zero)

theorem ialloc_first (lawful : Lawful strict loose st) (ok : ialloc st rootdev type = .ok (some ip,st')) :
    ∃ n, FirstFree st rootdev n ∧ Claimed rootdev type n ip st st' := by
  obtain ⟨n,claimed⟩ := iallocLoop_claimed _ (le_refl 1) ok
  refine ⟨n,?_,claimed⟩
  have width : st.sb.ninodes ≤ 65536 := lawful.volume.sound.layout.count.trans lawful.volume.narrow
  have searched := @iallocLoop_search rootdev 1 type st st.sb.ninodes (by omega) (le_refl 1) (by omega)
    fun j low high => by omega
  change iallocLoop rootdev type st.sb.ninodes st 1 = _ at ok
  rw [ok] at searched
  rcases searched with ⟨_,first,granted⟩ | ⟨_,_,none,_⟩
  · obtain ⟨_,_,_,_,got⟩ := claimed.claim
    cases granted with
    | slot _ _ _ number =>
      rw [← got.inum,number]
      exact first
  · cases none

/-- A reference is given back, which frees no inode. -/
theorem nodes_released {marks : List (Slot × Nat)} {origin : FsState} {hs : List Handle}
    (tended : Tended strict loose marks origin ((ip,.read) :: hs) st) (bound : ∀ n, loose n → ∃ s, (s,n) ∈ marks)
    (enough : st.exhausted = false) : nodes (iunlockput st ip) = nodes st ∧
      ∀ s, ((iunlockput st ip).icache s).inum = (st.icache s).inum := by
  have before := tended.kept enough
  have used : 0 < (st.icache ip).ref := tended.counted.used List.mem_cons_self
  have unlocked : iunlock st ip = st := if_neg (by omega)
  unfold iunlockput
  rw [unlocked]
  refine ⟨nodes_congr (before.lawful.iput used (tended.stays bound before)).1,fun s => ?_⟩
  rw [before.lawful.iput_eq used]
  exact (recount_field st ip _ s).2.1

/-- A new inode under a new name: the one that the service takes, with the link that it makes. -/
theorem nodes_created {marks : List (Slot × Nat)} {origin : FsState} {hs : List Handle}
    (tended : Tended strict loose marks origin ((dp,.read) :: hs) st) (bound : ∀ n, loose n → ∃ s, (s,n) ∈ marks)
    (room : hs.length < 48) (dir : IsDir st dp) (some_type : type ≠ 0) (regular : type ≠ tDir)
    (absent : (nodes st (st.icache dp).inum).entry (cname name) = none) {r : Slot × FsState}
    (ok : createNew st dp name type major minor = .ok r) (enough : r.2.exhausted = false) {s : Service}
    (node : s.node = nodes st) (count : s.ninodes = st.sb.ninodes) : s.free = some (r.2.icache r.1).inum ∧
      nodes r.2 = ((s.setNode (r.2.icache r.1).inum ⟨type,major,minor,1,[]⟩).link (st.icache dp).inum (cname name)
        (r.2.icache r.1).inum).node := by
  have trace := trace_since ((createNew_nests st dp name type major minor).elim ok)
  have lawful := (tended.kept (exhausted_of_suffix trace enough)).lawful
  have used : 0 < (st.icache dp).ref := tended.counted.used List.mem_cons_self
  have allocated : Meets Tolerated (ialloc st (st.icache dp).dev type) _ :=
    Held.iallocLoop tended.counted (by rw [List.length_map,List.length_cons]; omega) (st.icache dp).dev type st.sb.ninodes 1
  unfold createNew at ok
  cases allocating : ialloc st (st.icache dp).dev type with
  | error e =>
    rw [allocating] at ok
    cases ok
  | ok answer =>
    replace allocated := allocated.elim allocating
    rw [allocating] at ok
    obtain ⟨_ | ip,st1⟩ := answer
    · cases ok
    have space : ((ip,Mode.write) :: (dp,Mode.read) :: hs).length < 50 := by
      rw [List.length_cons,List.length_cons]
      omega
    dsimp only at ok
    rw [if_neg regular] at ok
    have calm : Calm st1 (createInode st1 ip major minor) :=
      (ilock_calm st1 ip).trans ((setDinode_local _ _ _).calm.trans ((iupdate_io _ _).toLocal ip).calm)
    have held : Held (ip :: dp :: hs.map Prod.fst) st1 := allocated
    obtain ⟨made_tended,ready2⟩ := tended.make dir some_type regular major minor (held.calm calm) allocating
    rw [(lawful.held dp used).1] at allocating
    obtain ⟨n,first,claimed⟩ := ialloc_first lawful allocating
    have made : Made n { Dinode.zero with type := type,major := major,minor := minor,nlink := 1 } ip st
      (createInode st1 ip major minor) := lawful.made claimed
    generalize createInode st1 ip major minor = st2 at ok made_tended ready2 made
    dsimp only at ok
    cases linking : dirlink st2 dp name (st2.icache ip).inum with
    | error e =>
      rw [linking] at ok
      cases ok
    | ok linked =>
      obtain ⟨c,st3⟩ := linked
      have linked := (made_tended.link bound space (List.mem_cons_of_mem _ List.mem_cons_self) List.mem_cons_self ready2
        name).elim linking
      rw [linking] at ok
      obtain rfl := Except.ok.inj ok
      dsimp only at enough linked ⊢
      have quiet := kprint_quiet st3 (c < 0) (show Message.createDirlink ≠ .ballocOut ∧ Message.createDirlink ≠ .iallocOut by decide)
      have free3 := exhausted_of_suffix (quiet.trace.trans ((iunlock_calm _ dp).trace.trans (iput_trace _ dp))) enough
      have free2 := exhausted_of_suffix (trace_since ((dirlink_nests st2 dp name _).elim linking)) free3
      obtain ⟨lawful2,_,_⟩ := made.lawful lawful some_type regular one_link rfl fun _ => rfl
      have apart : dp ≠ ip := by
        rintro rfl
        rw [made.vacant] at used
        exact lt_irrefl 0 used
      have other := made.other dp apart
      have number : (st2.icache ip).inum = n := by rw [made.self]
      have dir2 := (ready2 free2).1
      have ready := lawful2.ready (by rw [other]; exact used) dir2.1
      have new : (st.icache dp).inum ≠ n := fun same => (lawful.held dp used).2 (by rw [same]; exact made.unused)
      have nodes2 := nodes_made made lawful rfl fun _ => rfl
      have absent2 : (st2.volume rootdev).entry (st2.icache dp).inum (cname name) = none := by
        rw [← node_entry,other]
        change (nodes st2 (st.icache dp).inum).entry (cname name) = none
        rw [nodes2,Function.update_of_ne new]
        exact absent
      have width : (st2.icache ip).inum < 65536 := by
        rw [number]
        exact Nat.lt_of_lt_of_le made.place lawful.volume.narrow
      obtain ⟨rfl,number3,nodes3⟩ := nodes_linked lawful2 ready dir2.2 absent2 width linking free3
      rw [if_neg (by decide)] at enough ⊢
      obtain ⟨nodes4,number4⟩ := nodes_released (linked.perm (List.Perm.swap _ _ _)) bound free3
      rw [nodes4,number4,nodes3,number3,number,other,nodes2]
      refine ⟨free_found lawful first node count,?_⟩
      unfold Service.link Service.setNode
      rw [node]

end link

end Lxos.Files
