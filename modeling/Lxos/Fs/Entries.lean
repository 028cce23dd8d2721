import Lxos.Fs.Scan
import Lxos.Library.Places

/-! A directory is a finite map from names of at most 14 bytes to inode numbers, kept in
the row of its entries. `dirlookup` looks a name up in it, and `dirlink` adds one. -/
namespace Lxos.Fs
open Lxos.Bytes Lxos.Places

/-- Entry `j` of a directory with the bytes `byte`: its name and number, unless it is free. -/
def table (byte : Nat → Byte) (j : Nat) : Option (List Byte × Nat) :=
  if le16 (entryAt byte j) 0 = 0 then none else some (cname (deName (entryAt byte j)),(le16 (entryAt byte j) 0).toNat)

/-- The map that the directory in slot `dp` stands for: the number of a name, and its entry. -/
def lookup (st : FsState) (dev : Nat) (dp : Slot) (name : List Byte) : Option (Nat × Nat) :=
  find (table ((st.volume dev).byte (st.icache dp).inum)) ((st.icache dp).size.toNat / 16) name

/-- `dirlookup` finds the inode with this number at this entry, or nothing. -/
def Answers (st : FsState) (dp : Slot) (name : Buffer) (found : Option (Nat × Nat)) : Prop :=
  ∃ r, dirlookup st dp name = .ok r ∧
    r.1.map (fun s => ((r.2.icache s.1).inum,s.2)) = found.map fun s => (s.1,16 * s.2)

/-- Neither the disk nor any inode in use changed, and no reference was kept. -/
structure Restored (st st' : FsState) : Prop where
  disk : st'.disk = st.disk
  sb : st'.sb = st.sb
  ref : ∀ s, (st'.icache s).ref = (st.icache s).ref
  kept : ∀ s, 0 < (st.icache s).ref → st'.icache s = st.icache s

section entries
variable {byte : Nat → Byte} {name : Buffer} {j : Nat}

theorem matches_iff : Matches byte name j ↔ ∃ v, table byte j = some (cname name,v) := by
  unfold Matches table
  by_cases free : le16 (entryAt byte j) 0 = 0
  · rw [if_pos free]
    exact iff_of_false (fun h => h.1 free) fun h => nomatch h
  · rw [if_neg free]
    constructor
    · exact fun h => ⟨_,by rw [h.2]⟩
    · rintro ⟨v,same⟩
      exact ⟨free,(congrArg Prod.fst (Option.some.inj same)).symm⟩

theorem table_free (free : le16 (entryAt byte j) 0 = 0) : table byte j = none := if_pos free

theorem table_number {k : List Byte} {v : Nat} (here : table byte j = some (k,v)) : v = (le16 (entryAt byte j) 0).toNat := by
  unfold table at here
  split at here
  · cases here
  · exact (congrArg Prod.snd (Option.some.inj here)).symm

theorem table_congr {byte' : Nat → Byte} (same : ∀ i < 16, byte' (16 * j + i) = byte (16 * j + i)) :
    table byte' j = table byte j := by
  obtain ⟨number,title⟩ := @entry_matches byte (entryAt byte' j) j same
  unfold table
  rw [number,title]

theorem strncpyFrom_before (t s : Buffer) (n o : Nat) {i : Nat} (early : i < o) : strncpyFrom t s n o i = s i := by
  induction n generalizing s o with
  | zero => rfl
  | succ n ih =>
    have kept : blit s o 1 (fun _ => t o) i = s i := blit_outside (Or.inl early)
    unfold strncpyFrom
    dsimp only
    split
    · rw [ih _ _ (by omega),kept]
    · rw [strncpyZero_spec,if_neg (by omega),kept]

/-- A copy by `strncpy` is the same name. -/
theorem cstring_strncpy (t s : Buffer) (n o : Nat) : cstring (strncpyFrom t s n o) n o = cstring t n o := by
  induction n generalizing s o with
  | zero => rfl
  | succ n ih =>
    have first : blit s o 1 (fun _ => t o) o = t o := @blit_inside s (fun _ => t o) o 1 0 (by omega)
    unfold cstring strncpyFrom
    dsimp only
    by_cases stop : t o = 0
    · have out : ¬(o + 1 ≤ o ∧ o < o + 1 + n) := by omega
      rw [if_neg (not_not.mpr stop),strncpyZero_spec,if_neg out,first,if_pos stop,if_pos stop]
    · rw [if_pos stop,strncpyFrom_before _ _ _ _ (Nat.lt_succ_self o),first,if_neg stop,if_neg stop,ih]

theorem cstring_congr {a b : Buffer} {n o : Nat} (same : ∀ i, o ≤ i → i < o + n → a i = b i) : cstring a n o = cstring b n o := by
  induction n generalizing o with
  | zero => rfl
  | succ n ih =>
    unfold cstring
    rw [same o (le_refl o) (by omega),ih fun i low high => same i (by omega) (by omega)]

theorem table_written {inum : Nat} (some_number : 1 ≤ inum) (width : inum < 65536)
    (here : ∀ i < 16, byte (16 * j + i) = direntBytes name inum i) : table byte j = some (cname name,inum) := by
  have same : le16 (entryAt byte j) 0 = le16 (direntBytes name inum) 0 :=
    le16_congr fun i h => by rw [Nat.zero_add]; exact here i (by omega)
  have number := direntBytes_number name width
  have used : le16 (entryAt byte j) 0 ≠ 0 := by
    rw [same]
    intro zero
    rw [zero] at number
    exact absurd number (by change (0 : Nat) ≠ inum; omega)
  have title : cname (deName (entryAt byte j)) = cname name := by
    unfold cname
    refine (cstring_congr fun i _ high => ?_).trans (cstring_strncpy name zeros dirsiz 0)
    change byte (16 * j + (2 + i)) = strncpyFrom name zeros dirsiz 0 i
    have high : i < 14 := by
      change i < 0 + 14 at high
      omega
    rw [here (2 + i) (by omega)]
    unfold direntBytes put16
    rw [blit_outside (by omega)]
    exact blit_inside high
  unfold table
  rw [if_neg used,title,same,number]

end entries

section restored
variable {dev k : Nat} {ip : Slot} {st st' st'' : FsState}

theorem Inode.same {a b : Inode} (copy : a.toDinode = b.toDinode) (device : a.dev = b.dev) (inum : a.inum = b.inum)
    (ref : a.ref = b.ref) (valid : a.valid = b.valid) : a = b := by
  cases a
  cases b
  simp only at copy device inum ref valid
  rw [copy,device,inum,ref,valid]

theorem Idle.restored (idle : Idle st st') : Restored st st' :=
  ⟨idle.disk,idle.sb,fun s => by rw [idle.icache],fun s _ => by rw [idle.icache]⟩

theorem Restored.trans (first : Restored st st') (second : Restored st' st'') : Restored st st'' :=
  ⟨second.disk.trans first.disk,second.sb.trans first.sb,fun s => (second.ref s).trans (first.ref s),
    fun s used => (second.kept s (by rw [first.ref]; exact used)).trans (first.kept s used)⟩

theorem Got.restored (got : Got dev k ip st st') : Restored st (iput st' ip) := by
  have kept : ¬((st'.icache ip).valid = true ∧ (st'.icache ip).nlink = 0 ∧ (st'.icache ip).ref = 1) := by
    rintro ⟨valid,_,one⟩
    rcases got.origin with ⟨names,_⟩ | ⟨_,_,invalid⟩
    · have := names.1
      rw [got.ref] at one
      omega
    · rw [valid] at invalid
      cases invalid
  have put : iput st' ip = st'.setInode ip { st'.icache ip with ref := (st'.icache ip).ref - 1 } := by
    unfold iput
    dsimp only
    rw [if_neg kept]
  have ref (s : Slot) : ((iput st' ip).icache s).ref = (st.icache s).ref := by
    rw [put]
    by_cases here : s = ip
    · rw [here,FsState.setInode_same]
      change (st'.icache ip).ref - 1 = _
      rw [got.ref]
      omega
    · rw [FsState.setInode_other _ _ _ _ here,got.other s here]
  refine ⟨?_,?_,ref,fun s used => ?_⟩
  · rw [put]
    exact got.disk
  · rw [put]
    exact got.sb
  · by_cases here : s = ip
    · subst s
      have number := ref ip
      rw [put,FsState.setInode_same] at number ⊢
      rcases got.origin with ⟨names,copy,valid⟩ | ⟨_,zero,_⟩
      · have device := got.device.trans names.2.1.symm
        have inum := got.inum.trans names.2.2.symm
        exact Inode.same copy device inum number valid
      · omega
    · rw [put,FsState.setInode_other _ _ _ _ here,got.other s here]

end restored

section directory
variable {dev : Nat} {dp : Slot} {st st' : FsState} {name : Buffer}

/-- A directory of whole entries without holes. -/
abbrev Complete (dev : Nat) (dp : Slot) (st : FsState) : Prop := Readable dev dp (st.icache dp).size.toNat st

theorem Readable.scan (complete : Complete dev dp st) : Scan dev dp st :=
  ⟨complete.ready,complete.type,complete.whole,complete.small⟩

theorem Readable.full (complete : Complete dev dp st) : (st.volume dev).Filled (st.icache dp).inum := by
  intro bn inside
  rw [FsState.volume_locked complete.ready.unique complete.ready.locked complete.ready.place] at inside
  exact complete.filled bn inside

theorem Readable.still (complete : Complete dev dp st) (idle : Idle st st') : Complete dev dp st' := by
  have same := complete.idle idle
  unfold Complete
  rw [idle.icache]
  exact same

/-- The lookup of a name: the inode is referenced, or nothing happened. -/
theorem Scan.found (scan : Scan dev dp st) (filled : (st.volume dev).Filled (st.icache dp).inum)
    (spare : ∃ s, (st.icache s).ref = 0) (name : Buffer) :
    (lookup st dev dp (cname name) = none ∧ ∃ st', Idle st st' ∧ dirlookup st dp name = .ok (none,st')) ∨
    ∃ k i ip st1 st', lookup st dev dp (cname name) = some (k,i) ∧ Idle st st1 ∧ Got dev k ip st1 st' ∧
      dirlookup st dp name = .ok (some (ip,16 * i),st') := by
  obtain ⟨c,whole⟩ := scan.whole
  obtain ⟨⟨answer,st'⟩,ok⟩ := scan.total spare name
  have looked := dirlookup_looked scan ok (Or.inl filled)
  match answer, looked with
  | none, looked =>
    obtain ⟨seen,absent⟩ := looked
    refine Or.inl ⟨find_none.mpr fun l low w here => ?_,st',seen.idle filled,ok⟩
    exact absent l (Nat.zero_le l) (by omega) (matches_iff.mpr ⟨w,here⟩)
  | some (ip,off), looked =>
    obtain ⟨st1,i,seen,inside,rfl,same,first,got⟩ := looked
    obtain ⟨k,here⟩ := matches_iff.mp same
    rw [← table_number here] at got
    refine Or.inr ⟨k,i,ip,st1,st',find_some.mpr ⟨by omega,here,fun l low w there => ?_⟩,seen.idle filled,iget_got got,ok⟩
    exact first l (Nat.zero_le l) low (matches_iff.mpr ⟨w,there⟩)

theorem dirlookup_complete (complete : Complete dev dp st) (spare : ∃ s, (st.icache s).ref = 0) (name : Buffer) :
    (lookup st dev dp (cname name) = none ∧ ∃ st', Idle st st' ∧ dirlookup st dp name = .ok (none,st')) ∨
    ∃ k i ip st1 st', lookup st dev dp (cname name) = some (k,i) ∧ Idle st st1 ∧ Got dev k ip st1 st' ∧
      dirlookup st dp name = .ok (some (ip,16 * i),st') := complete.scan.found complete.full spare name

theorem dirlookup_answers (complete : Complete dev dp st) (spare : ∃ s, (st.icache s).ref = 0) (name : Buffer) :
    Answers st dp name (lookup st dev dp (cname name)) := by
  rcases dirlookup_complete complete spare name with ⟨none,st',_,result⟩ | ⟨k,i,ip,st1,st',found,_,got,result⟩
  · rw [none]
    exact ⟨_,result,rfl⟩
  · rw [found]
    refine ⟨_,result,?_⟩
    change some ((st'.icache ip).inum,16 * i) = some (k,16 * i)
    rw [got.inum]

/-- The directory after an entry was written at a free place or at the end. -/
theorem Wrote.complete {i inum : Nat} (complete : Complete dev dp st) (enough : st'.exhausted = false)
    (wrote : Wrote dev dp (direntBytes name inum) (16 * i) direntSize st st') : Complete dev dp st' ∧
      (st'.icache dp).size.toNat = max (st.icache dp).size.toNat (16 * i + 16) := by
  have ready := complete.ready
  have ready' := wrote.ready ready
  have copy := FsState.volume_locked ready.unique ready.locked ready.place
  have copy' := FsState.volume_locked ready'.unique ready'.locked ready'.place
  have inode := wrote.change.inum dp
  have size : (st'.icache dp).size.toNat = max (st.icache dp).size.toNat (16 * i + 16) := by
    have grown := wrote.size
    rw [copy,← inode,copy'] at grown
    exact grown
  obtain ⟨addrs,length,attrs⟩ := wrote.frame.attrs
  rw [copy,← inode,copy'] at attrs
  obtain ⟨c,whole⟩ := complete.whole
  have filled := wrote.filled
  refine ⟨⟨ready',by rw [attrs]; exact complete.type,enough,fun bn inside => ?_,le_refl _,?_⟩,size⟩
  · rw [inode]
    refine filled bn ?_
    rw [← inode,copy']
    exact inside
  · rw [size]
    rcases Nat.le_total (st.icache dp).size.toNat (16 * i + 16) with less | more
    · rw [max_eq_right less]
      exact ⟨i + 1,rfl⟩
    · rw [max_eq_left more]
      exact ⟨c,whole⟩

/-- The map after an entry was written: the name has this number, other names what they had. -/
theorem Wrote.lookup {i inum : Nat} (complete : Complete dev dp st) (enough : st'.exhausted = false) (place : Place dev dp i st)
    (absent : lookup st dev dp (cname name) = none) (some_number : 1 ≤ inum) (width : inum < 65536)
    (wrote : Wrote dev dp (direntBytes name inum) (16 * i) direntSize st st') (m : List Byte) :
    lookup st' dev dp m = if m = cname name then some (inum,i) else lookup st dev dp m := by
  obtain ⟨_,size⟩ := wrote.complete complete enough
  obtain ⟨c,whole⟩ := complete.whole
  have within := place.within
  have bytes (o : Nat) : (st'.volume dev).byte (st'.icache dp).inum o = if 16 * i ≤ o ∧ o < 16 * i + 16 then
      direntBytes name inum (o - 16 * i) else (st.volume dev).byte (st.icache dp).inum o := by
    rw [wrote.change.inum]
    exact wrote.byte o
  refine find_put absent (fun inside => table_free (place.free (by omega))) (by omega)
    (by rw [size]; omega) (table_written some_number width fun o low => ?_) (fun j inside away => table_congr fun o low => ?_)
  · rw [bytes,if_pos (by omega),Nat.add_sub_cancel_left]
  · rw [bytes,if_neg (by omega)]

theorem dirlink_cases (complete : Complete dev dp st) (spare : ∃ s, (st.icache s).ref = 0) (name : Buffer) (inum : Nat) :
    (lookup st dev dp (cname name) = none ∧ ∃ st2 i, Idle st st2 ∧ Place dev dp i st ∧
      dirlink st dp name inum = .ok (0,
        if (writei st2 dp (direntBytes name inum) (16 * i) direntSize).1 ≠ ((direntSize : Nat) : Int) then
          kprint (writei st2 dp (direntBytes name inum) (16 * i) direntSize).2 .dirlinkWrite
        else (writei st2 dp (direntBytes name inum) (16 * i) direntSize).2)) ∨
    lookup st dev dp (cname name) ≠ none ∧ ∃ st2, Restored st st2 ∧ dirlink st dp name inum = .ok (-1,st2) := by
  have small := complete.small
  rcases dirlookup_complete complete spare name with ⟨none,st1,idle1,result⟩ | ⟨k,i,ip,st1,st2,found,idle,got,result⟩
  · have complete1 := complete.still idle1
    obtain ⟨st2,i,idle2,_,looked⟩ := @dirlinkLoop_spec dev _ dp st1 (entries + 1) complete1 st1.stack 0 rfl
      (by rw [idle1.icache]; change _ < 16 * (0 + (268435456 + 1)); omega) (Nat.zero_le _)
    obtain ⟨_,i',same,place⟩ := dirlinkLoop_place (j := 0) _ complete1.scan st1.stack (Nat.zero_le _)
      (fun l low => absurd low (Nat.not_lt_zero l)) looked (Or.inl complete1.full)
    obtain rfl : i = i' := by
      have same : 16 * i = 16 * i' := same
      omega
    refine Or.inl ⟨none,st2,i,idle1.trans idle2,?_,?_⟩
    · obtain ⟨within,free,first⟩ := place
      rw [idle1.icache] at within free first
      rw [idle1.volume] at free first
      exact ⟨within,free,first⟩
    · unfold dirlink
      rw [result]
      dsimp only
      rw [Nat.mul_zero] at looked
      rw [looked]
  · refine Or.inr ⟨by rw [found]; exact Option.some_ne_none _,iput st2 ip,idle.restored.trans got.restored,?_⟩
    unfold dirlink
    rw [result]

theorem Place.still {i : Nat} (place : Place dev dp i st) (idle : Idle st st') : Place dev dp i st' := by
  obtain ⟨within,free,first⟩ := place
  rw [← idle.icache] at within free first
  rw [← idle.volume] at free first
  exact ⟨within,free,first⟩

/-- `dirlink` adds one name to the map. It fails exactly where the name is there already, and
changes nothing then. -/
theorem dirlink_map (complete : Complete dev dp st) (spare : ∃ s, (st.icache s).ref = 0) {inum : Nat}
    (some_number : 1 ≤ inum) (width : inum < 65536) (room : ∀ i, Place dev dp i st → 16 * i + 16 ≤ 71680)
    (enough : ∀ r, dirlink st dp name inum = .ok r → r.2.exhausted = false) :
    ∃ r st', dirlink st dp name inum = .ok (r,st') ∧
      (r = -1 ↔ ∃ l, 16 * l < (st.icache dp).size.toNat ∧ Matches ((st.volume dev).byte (st.icache dp).inum) name l) ∧
      (r = -1 → Restored st st') ∧
      (r ≠ -1 → r = 0 ∧ ∃ i, Place dev dp i st ∧
        table ((st'.volume dev).byte (st'.icache dp).inum) i = some (cname name,inum) ∧
        ∀ m, (cname m = cname name → Answers st' dp m (some (inum,i))) ∧
          ∀ found, cname m ≠ cname name → Answers st dp m found → Answers st' dp m found) := by
  have small := complete.small
  obtain ⟨c,whole⟩ := complete.whole
  have named : (∃ l, 16 * l < (st.icache dp).size.toNat ∧ Matches ((st.volume dev).byte (st.icache dp).inum) name l) ↔
      lookup st dev dp (cname name) ≠ none := by
    rw [lookup,ne_eq,find_none]
    push Not
    refine exists_congr fun l => ?_
    rw [matches_iff]
    refine and_congr ?_ Iff.rfl
    omega
  rcases dirlink_cases complete spare name inum with ⟨none,st2,i,idle,place0,plain⟩ | ⟨found,st2,restored,result⟩
  · have complete2 := complete.still idle
    have place2 := place0.still idle
    have regular : (st2.icache dp).type ≠ tDev := by
      rw [complete2.type]
      decide
    have wrote := @writei_wrote dev dp st2 (direntBytes name inum) (16 * i) direntSize complete2.ready regular
      complete2.full place2.within (room i place0)
    have free := enough _ plain
    dsimp only at free
    have more : (writei st2 dp (direntBytes name inum) (16 * i) direntSize).2.exhausted = false := by
      refine exhausted_of_suffix ?_ free
      split
      · exact List.suffix_cons _ _
      · exact List.suffix_refl _
    obtain ⟨count,wrote⟩ := wrote more
    rw [if_neg (not_not.mpr count)] at plain
    generalize (writei st2 dp (direntBytes name inum) (16 * i) direntSize).2 = st3 at plain more wrote
    have same (m : List Byte) : lookup st2 dev dp m = lookup st dev dp m := by
      unfold lookup
      rw [idle.volume,idle.icache]
    have after := wrote.lookup complete2 more place2 (by rw [same]; exact none) some_number width
    obtain ⟨complete3,_⟩ := wrote.complete complete2 more
    have spare3 : ∃ s, (st3.icache s).ref = 0 := by
      obtain ⟨s,zero⟩ := spare
      exact ⟨s,by rw [wrote.change.ref,idle.icache]; exact zero⟩
    refine ⟨0,st3,plain,?_,fun failed => absurd failed (by decide),fun _ => ⟨rfl,i,place0,?_,fun m => ⟨fun equal => ?_,fun found other before => ?_⟩⟩⟩
    · rw [named,none]
      exact iff_of_false (by decide) (fun h => h rfl)
    · refine table_written some_number width fun o low => ?_
      rw [wrote.change.inum,wrote.byte]
      change (if 16 * i ≤ 16 * i + o ∧ 16 * i + o < 16 * i + 16 then _ else _) = _
      rw [if_pos (by omega),Nat.add_sub_cancel_left]
    · have answer := dirlookup_answers complete3 spare3 m
      rw [after,if_pos equal] at answer
      exact answer
    · have answer := dirlookup_answers complete3 spare3 m
      rw [after,if_neg other,same] at answer
      obtain ⟨r,ok,value⟩ := before
      obtain ⟨r',ok',value'⟩ := dirlookup_answers complete spare m
      obtain rfl := Except.ok.inj (ok.symm.trans ok')
      obtain ⟨r',ok',value''⟩ := answer
      exact ⟨r',ok',value''.trans (value'.symm.trans value)⟩
  · refine ⟨-1,st2,result,?_,fun _ => restored,fun absurd => (absurd rfl).elim⟩
    rw [named]
    exact iff_of_true rfl found

end directory

/-- A disk of 16 blocks with an empty directory, inode 1, open in slot 0. -/
def bare : FsState := blank.setDinode 0 { (blank.icache 0).toDinode with type := tDir }

theorem bare_complete : Complete 1 0 bare := by
  have volume := FsState.volume_setDinode blank_ready.unique blank_ready.locked blank_ready.place
    { (blank.icache 0).toDinode with type := tDir }
  have copy := FsState.volume_locked blank_ready.unique blank_ready.locked blank_ready.place
  have sound : (bare.volume 1).Sound := by
    unfold bare
    rw [volume]
    exact Volume.setInode_owned blank_ready.sound (by rw [copy])
  have ready : Ready 1 0 bare := blank_ready.step (setDinode_local _ _ _) rfl sound
  exact ⟨ready,rfl,rfl,fun bn inside => absurd inside (Nat.not_lt_zero _),le_refl _,⟨0,rfl⟩⟩

/-- A first name in the empty directory. -/
theorem dirlink_map_bare : ∃ st', dirlink bare 0 (bytes [97]) 2 = .ok (0,st') ∧ Answers st' 0 (bytes [97]) (some (2,0)) := by
  have linked : dirlink bare 0 (bytes [97]) 2 = .ok (0,
      if (writei bare 0 (direntBytes (bytes [97]) 2) 0 direntSize).1 ≠ ((direntSize : Nat) : Int) then
        kprint (writei bare 0 (direntBytes (bytes [97]) 2) 0 direntSize).2 .dirlinkWrite
      else (writei bare 0 (direntBytes (bytes [97]) 2) 0 direntSize).2) := rfl
  obtain ⟨r,st',ok,present,_,added⟩ := @dirlink_map 1 0 bare (bytes [97]) bare_complete ⟨1,rfl⟩ 2 (by decide) (by decide)
    (fun i place => by
      have within := place.within
      change 16 * i ≤ 0 at within
      omega)
    (fun r ok => by
      rw [linked] at ok
      rw [← Except.ok.inj ok]
      decide)
  have new : r ≠ -1 := by
    intro old
    obtain ⟨l,inside,_⟩ := present.mp old
    exact absurd inside (Nat.not_lt_zero _)
  obtain ⟨rfl,i,place,_,answers⟩ := added new
  have within := place.within
  change 16 * i ≤ 0 at within
  obtain rfl : i = 0 := by omega
  exact ⟨st',ok,(answers (bytes [97])).1 rfl⟩

end Lxos.Fs
