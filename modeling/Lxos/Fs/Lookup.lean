import Lxos.Fs.FileLaw
import Lxos.Fs.Directory

/-! Directories as lists of entries. A name is at most 14 bytes, ended by a zero if
shorter; `dirlookup` finds the first entry in use that has the name. -/
namespace Lxos.Fs
open Lxos.Bytes

/-- The string at `i`, of at most `n` bytes. -/
def cstring (s : Buffer) : Nat → Nat → List Byte
  | 0, _ => []
  | n+1, i => if s i = 0 then [] else s i :: cstring s n (i+1)

/-- The name in a buffer of `DIRSIZ` bytes. -/
def cname (s : Buffer) : List Byte := cstring s dirsiz 0

theorem strncmpFrom_zero (p q : Buffer) (n i : Nat) : strncmpFrom p q n i = 0 ↔ cstring p n i = cstring q n i := by
  induction n generalizing i with
  | zero => exact iff_of_true rfl rfl
  | succ n ih =>
    unfold strncmpFrom cstring
    by_cases same : p i = q i
    · by_cases stop : p i = 0
      · rw [if_neg (fun h => h.1 stop),if_pos stop,if_pos (same ▸ stop),same]
        exact iff_of_true (sub_self _) rfl
      · rw [if_pos ⟨stop,same⟩,if_neg stop,if_neg (same ▸ stop),ih,same]
        exact (List.cons_inj_right _).symm
    · rw [if_neg (fun h => same h.2)]
      refine iff_of_false (fun zero => same (BitVec.eq_of_toNat_eq (by omega))) ?_
      by_cases left : p i = 0
      · rw [if_pos left,if_neg (left ▸ Ne.symm same)]
        exact fun h => nomatch h
      · rw [if_neg left]
        by_cases right : q i = 0
        · rw [if_pos right]
          exact fun h => nomatch h
        · rw [if_neg right]
          exact fun h => same (List.cons.inj h).1

theorem namecmp_zero (p q : Buffer) : namecmp p q = 0 ↔ cname p = cname q := strncmpFrom_zero p q dirsiz 0

/-- A buffer that begins with the bytes of `l`, with a zero after them if they are few. -/
theorem cstring_eq {s : Buffer} {l : List Byte} (string : 0 ∉ l) (n o : Nat)
    (inside : ∀ i < n, i < l.length → s (o + i) = bytes l i) (stop : l.length < n → s (o + l.length) = 0) :
    cstring s n o = l.take n := by
  induction n generalizing o l with
  | zero => rfl
  | succ n ih =>
    unfold cstring
    cases l with
    | nil =>
      have first : s o = 0 := stop (Nat.succ_pos n)
      rw [if_pos first,List.take_nil]
    | cons a l =>
      have first : s o = a := inside 0 (Nat.succ_pos n) (Nat.succ_pos _)
      have nonzero : a ≠ 0 := fun zero => string (by rw [zero]; exact List.mem_cons_self)
      have rest : cstring s n (o + 1) = l.take n := by
        refine ih (fun h => string (List.mem_cons_of_mem a h)) (o + 1) (fun i h few => ?_) (fun short => ?_)
        · have next := inside (i + 1) (by omega) (Nat.succ_lt_succ few)
          rw [Nat.add_assoc,Nat.add_comm 1 i]
          exact next
        · have next := stop (Nat.succ_lt_succ short)
          rw [Nat.add_assoc,Nat.add_comm 1 l.length]
          exact next
      rw [first,if_neg nonzero,rest,List.take_succ_cons]

theorem bytes_past {l : List Byte} {i : Nat} (h : l.length ≤ i) : bytes l i = 0 := by
  unfold bytes
  rw [List.getD_eq_default _ _ h]

/-- A buffer whose first `DIRSIZ` bytes are those of `l` and then zeros. -/
theorem cname_eq {s : Buffer} {l : List Byte} (string : 0 ∉ l) (same : ∀ i < 14, s i = bytes l i) :
    cname s = l.take 14 :=
  cstring_eq string 14 0 (fun i h _ => by rw [Nat.zero_add]; exact same i h)
    (fun short => by rw [Nat.zero_add,same _ short,bytes_past (le_refl _)])

theorem strncpyZero_spec (s : Buffer) (n o i : Nat) :
    strncpyZero s n o i = if o ≤ i ∧ i < o + n then 0 else s i := by
  induction n generalizing s o with
  | zero => rw [if_neg (by omega)]; rfl
  | succ n ih =>
    unfold strncpyZero
    rw [ih]
    by_cases here : i = o
    · rw [if_neg (by omega),if_pos (by omega),here]
      exact @blit_inside s zeros o 1 0 (by omega)
    · rw [blit_outside (by omega)]
      have same : (o + 1 ≤ i ∧ i < o + 1 + n) ↔ (o ≤ i ∧ i < o + (n + 1)) := by omega
      simp only [same]

/-- A string of zeros after its end is copied as it is. -/
theorem strncpyFrom_spec {t : Buffer} (closed : ∀ i j, i ≤ j → t i = 0 → t j = 0) (s : Buffer) (n o i : Nat) :
    strncpyFrom t s n o i = if o ≤ i ∧ i < o + n then t i else s i := by
  induction n generalizing s o with
  | zero => rw [if_neg (by omega)]; rfl
  | succ n ih =>
    have wide : (o + 1 ≤ i ∧ i < o + 1 + n) ↔ i ≠ o ∧ (o ≤ i ∧ i < o + (n + 1)) := by omega
    have first : blit s o 1 (fun _ => t o) o = t o := @blit_inside s (fun _ => t o) o 1 0 (by omega)
    unfold strncpyFrom
    dsimp only
    by_cases here : i = o
    · subst i
      have out : ¬(o + 1 ≤ o ∧ o < o + 1 + n) := by omega
      rw [@if_pos (o ≤ o ∧ o < o + (n + 1)) _ (by omega)]
      split
      · rw [ih,if_neg out,first]
      · rw [strncpyZero_spec,if_neg out,first]
    · have kept : blit s o 1 (fun _ => t o) i = s i := blit_outside (by omega)
      split
      · rw [ih]
        simp only [wide,here,ne_eq,not_false_iff,true_and,kept]
      · rename_i stop
        rw [strncpyZero_spec]
        simp only [wide,here,ne_eq,not_false_iff,true_and,kept]
        by_cases inside : o ≤ i ∧ i < o + (n + 1)
        · rw [if_pos inside,if_pos inside,closed o i inside.1 (not_not.mp stop)]
        · rw [if_neg inside,if_neg inside]

theorem strncpy_bytes {l : List Byte} (string : 0 ∉ l) (s : Buffer) {i : Nat} (h : i < 14) :
    strncpy s (bytes l) dirsiz i = bytes l i := by
  have closed (i j : Nat) (le : i ≤ j) (zero : bytes l i = 0) : bytes l j = 0 := by
    apply bytes_past
    by_contra short
    have inside : i < l.length := by omega
    unfold bytes at zero
    rw [List.getD_eq_getElem _ _ inside] at zero
    exact string (zero ▸ List.getElem_mem inside)
  unfold strncpy
  rw [strncpyFrom_spec closed,if_pos ⟨Nat.zero_le _,by rw [Nat.zero_add]; exact h⟩]

/-- The number and the name of an entry as `dirlink` writes it. -/
theorem direntBytes_number (name : Buffer) {inum : Nat} (width : inum < 65536) :
    (le16 (direntBytes name inum) 0).toNat = inum := by
  unfold direntBytes
  rw [le16_put16,BitVec.toNat_ofNat]
  exact Nat.mod_eq_of_lt width

theorem direntBytes_name {l : List Byte} (string : 0 ∉ l) (inum : Nat) :
    cname (deName (direntBytes (bytes l) inum)) = l.take 14 := by
  refine cname_eq string (fun i h => ?_)
  unfold deName direntBytes put16
  rw [blit_outside (by omega),blit_inside h,strncpy_bytes string zeros h]

section loop
variable {dev m : Nat} {dp : Slot} {st : FsState} {name : Buffer}

/-- Entry `j` of a directory with the bytes `byte`. -/
def entryAt (byte : Nat → Byte) (j : Nat) : Buffer := fun i => byte (16 * j + i)

/-- Entry `j` is in use and has the name. -/
def Matches (byte : Nat → Byte) (name : Buffer) (j : Nat) : Prop :=
  le16 (entryAt byte j) 0 ≠ 0 ∧ cname name = cname (deName (entryAt byte j))

instance (byte : Nat → Byte) (name : Buffer) (j : Nat) : Decidable (Matches byte name j) :=
  inferInstanceAs (Decidable (_ ∧ _))

/-- The first `m` bytes of the directory in slot `dp` can be read: it is loaded, and
has no hole among them. -/
structure Readable (dev : Nat) (dp : Slot) (m : Nat) (st : FsState) : Prop where
  ready : Ready dev dp st
  type : (st.icache dp).type = tDir
  enough : st.exhausted = false
  filled : ∀ bn, bn * 512 < m → bn < 140 ∧ (st.volume dev).ref ((st.icache dp).inum,bn) ≠ 0
  within : m ≤ (st.icache dp).size.toNat
  whole : 16 ∣ m

theorem Readable.small (readable : Readable dev dp m st) : m ≤ 71680 := by
  by_contra large
  have := (readable.filled 140 (by omega)).1
  omega

theorem Readable.idle {st' : FsState} (readable : Readable dev dp m st) (idle : Idle st st') : Readable dev dp m st' := by
  refine ⟨readable.ready.idle idle,?_,idle.exhausted.trans readable.enough,?_,?_,readable.whole⟩
  · rw [idle.icache]
    exact readable.type
  · rw [idle.icache,idle.volume]
    exact readable.filled
  · rw [idle.icache]
    exact readable.within

theorem Readable.entry (readable : Readable dev dp m st) (de : Buffer) {j : Nat} (inside : 16 * j < m) :
    Idle st (readi st dp de (16 * j) direntSize).2.2 ∧ (readi st dp de (16 * j) direntSize).1 = (direntSize : Nat) ∧
      ∀ i < 16, (readi st dp de (16 * j) direntSize).2.1 i =
        entryAt ((st.volume dev).byte (st.icache dp).inum) j i := by
  obtain ⟨c,whole⟩ := readable.whole
  have bound := readable.small
  have within := readable.within
  have regular : (st.icache dp).type ≠ tDev := by
    rw [readable.type]
    decide
  have idle : Idle st (readi st dp de (16 * j) direntSize).2.2 := by
    refine (readi_present readable.ready de (16 * j) (by decide) (fun bn _ high => readable.filled bn ?_)).1
    have := (lt_min_iff.mp high).1
    change bn * 512 < 16 * j + 16 at this
    omega
  have amount : min direntSize ((st.icache dp).size.toNat - 16 * j) = 16 := by
    change min 16 _ = 16
    omega
  obtain ⟨count,bytes⟩ := readi_bytes readable.ready regular readable.enough de idle (by omega)
    (by change 16 * j + 16 < _; omega) (by rw [amount]; decide)
  rw [amount] at count bytes
  refine ⟨idle,count,fun i h => ?_⟩
  have copied := @blit_inside de (fun i => (st.volume dev).byte (st.icache dp).inum (16 * j + i)) 0 16 i h
  rw [Nat.zero_add] at copied
  rw [bytes,copied]
  rfl

theorem entry_matches {byte : Nat → Byte} {de : Buffer} {j : Nat} (same : ∀ i < 16, de i = entryAt byte j i) :
    le16 de 0 = le16 (entryAt byte j) 0 ∧ cname (deName de) = cname (deName (entryAt byte j)) := by
  have shared (n o : Nat) (h : o + n ≤ 14) :
      cstring (deName de) n o = cstring (deName (entryAt byte j)) n o := by
    induction n generalizing o with
    | zero => rfl
    | succ n ih =>
      unfold cstring
      have byte : deName de o = deName (entryAt byte j) o := same (2 + o) (by omega)
      rw [byte,ih (o + 1) (by omega)]
  refine ⟨le16_congr (fun i h => ?_),shared 14 0 (le_refl _)⟩
  rw [Nat.zero_add]
  exact same i (by omega)

/-- The answer for an entry at `off`. -/
def referenced (off : Nat) : Except Fault (Slot × FsState) → Except Fault (Option (Slot × Nat) × FsState)
  | .ok (ip,st) => .ok (some (ip,off),st)
  | .error e => .error e

/-- One round: the entry is the one looked for, or the loop goes on. -/
theorem dirlookupLoop_round (fuel : Nat) (readable : Readable dev dp m st) (de : Buffer) {j : Nat}
    (inside : 16 * j < m) : ∃ st' de', Idle st st' ∧
      dirlookupLoop dp name (fuel + 1) st de (16 * j) =
        if Matches ((st.volume dev).byte (st.icache dp).inum) name j then
          referenced (16 * j) (iget st' dev (le16 (entryAt ((st.volume dev).byte (st.icache dp).inum) j) 0).toNat)
        else dirlookupLoop dp name fuel st' de' (16 * (j + 1)) := by
  have bound := readable.small
  obtain ⟨idle,count,bytes⟩ := readable.entry de inside
  have next : u32 (16 * j + direntSize) = 16 * (j + 1) := u32_of_lt (by change 16 * j + 16 < _; omega)
  rw [dirlookupLoop,if_pos (Nat.lt_of_lt_of_le inside readable.within)]
  generalize readi st dp de (16 * j) direntSize = r at idle count bytes ⊢
  obtain ⟨c,de',st₁⟩ := r
  dsimp only at idle count bytes ⊢
  obtain ⟨number,title⟩ := entry_matches bytes
  have device : (st₁.icache dp).dev = dev := by rw [idle.icache,readable.ready.locked.2.1]
  have quiet : (if c ≠ ((direntSize : Nat) : Int) then kprint st₁ .dirlookupRead else st₁) = st₁ :=
    if_neg (fun h => h count)
  refine ⟨st₁,de',idle,?_⟩
  rw [quiet,next,number,device]
  by_cases free : le16 (entryAt ((st.volume dev).byte (st.icache dp).inum) j) 0 = 0
  · rw [if_pos free,if_neg (fun h => h.1 free)]
  · rw [if_neg free]
    by_cases same : namecmp name (deName de') = 0
    · rw [if_pos same,if_pos ⟨free,((namecmp_zero _ _).mp same).trans title⟩]
      rfl
    · rw [if_neg same,if_neg (fun h => same ((namecmp_zero _ _).mpr (h.2.trans title.symm)))]

/-- The first match from entry `j` on is entry `i`, and its inode is referenced. -/
theorem dirlookupLoop_found (fuel : Nat) (readable : Readable dev dp m st) (de : Buffer) {j i : Nat} (later : j ≤ i)
    (inside : 16 * i < m) (enough : i < j + fuel)
    (before : ∀ l, j ≤ l → l < i → ¬Matches ((st.volume dev).byte (st.icache dp).inum) name l)
    (here : Matches ((st.volume dev).byte (st.icache dp).inum) name i) :
    ∃ st', Idle st st' ∧ dirlookupLoop dp name fuel st de (16 * j) =
      referenced (16 * i) (iget st' dev (le16 (entryAt ((st.volume dev).byte (st.icache dp).inum) i) 0).toNat) := by
  induction fuel generalizing st de j with
  | zero => omega
  | succ fuel ih =>
    obtain ⟨st₁,de',idle,round⟩ := @dirlookupLoop_round dev m dp st name fuel readable de j (by omega)
    rw [round]
    rcases Nat.eq_or_lt_of_le later with rfl | less
    · rw [if_pos here]
      exact ⟨st₁,idle,rfl⟩
    · have same : (st₁.volume dev).byte (st₁.icache dp).inum = (st.volume dev).byte (st.icache dp).inum := by
        rw [idle.volume,idle.icache]
      obtain ⟨st₂,idle₂,result⟩ := ih (readable.idle idle) de' (j := j + 1) less (by omega)
        (fun l low high => by rw [same]; exact before l (by omega) high) (by rw [same]; exact here)
      rw [same] at result
      rw [if_neg (before j (le_refl j) less)]
      exact ⟨st₂,idle.trans idle₂,result⟩

/-- No entry from `j` on has the name. -/
theorem dirlookupLoop_absent (fuel : Nat) (readable : Readable dev dp m st) (de : Buffer) {j : Nat}
    (ending : (st.icache dp).size.toNat = m) (enough : m < 16 * (j + fuel))
    (absent : ∀ l, j ≤ l → 16 * l < m →
      ¬Matches ((st.volume dev).byte (st.icache dp).inum) name l) :
    ∃ st', Idle st st' ∧ (16 * j ≤ m →
      dirlookupLoop dp name fuel st de (16 * j) = .ok (none,st')) := by
  induction fuel generalizing st de j with
  | zero => exact ⟨st,Idle.refl st,fun within => by omega⟩
  | succ fuel ih =>
    rcases Nat.lt_or_ge (16 * j) m with inside | last
    · obtain ⟨st₁,de',idle,round⟩ := @dirlookupLoop_round dev m dp st name fuel readable de j inside
      obtain ⟨c,whole⟩ := readable.whole
      have same : (st₁.volume dev).byte (st₁.icache dp).inum = (st.volume dev).byte (st.icache dp).inum := by
        rw [idle.volume,idle.icache]
      obtain ⟨st₂,idle₂,result⟩ := ih (readable.idle idle) de' (j := j + 1) (by rw [idle.icache]; exact ending) (by omega)
        (fun l low high => by rw [same]; exact absent l (by omega) high)
      refine ⟨st₂,idle.trans idle₂,fun _ => ?_⟩
      rw [round,if_neg (absent j (le_refl j) inside)]
      exact result (by omega)
    · refine ⟨st,Idle.refl st,fun _ => ?_⟩
      rw [dirlookupLoop,if_neg (by omega)]

theorem dirlookup_loop (readable : Readable dev dp m st) (name : Buffer) :
    dirlookup st dp name = dirlookupLoop dp name (entries + 1) st st.stack (16 * 0) := by
  unfold dirlookup
  rw [if_neg (fun h => h readable.type)]

/-- The first free entry from entry `j` on, or the end of the directory. -/
theorem dirlinkLoop_spec (fuel : Nat) (readable : Readable dev dp m st) (de : Buffer) {j : Nat}
    (ending : (st.icache dp).size.toNat = m) (enough : m < 16 * (j + fuel)) (within : 16 * j ≤ m) :
    ∃ st' i, Idle st st' ∧ 16 * i ≤ m ∧
      dirlinkLoop dp fuel st de (16 * j) = .ok (16 * i,st') := by
  induction fuel generalizing st de j with
  | zero => omega
  | succ fuel ih =>
    rw [dirlinkLoop]
    rcases Nat.lt_or_ge (16 * j) m with inside | last
    · obtain ⟨c,whole⟩ := readable.whole
      have bound := readable.small
      obtain ⟨idle,count,_⟩ := readable.entry de inside
      have next : u32 (16 * j + direntSize) = 16 * (j + 1) := u32_of_lt (by change 16 * j + 16 < _; omega)
      rw [if_pos (by omega)]
      generalize readi st dp de (16 * j) direntSize = r at idle count ⊢
      obtain ⟨c,de',st₁⟩ := r
      dsimp only at idle count ⊢
      have quiet : (if c ≠ ((direntSize : Nat) : Int) then kprint st₁ .dirlinkRead else st₁) = st₁ :=
        if_neg (fun h => h count)
      rw [quiet,next]
      split
      · exact ⟨st₁,j,idle,within,rfl⟩
      · obtain ⟨st₂,i,idle₂,place,result⟩ := ih (readable.idle idle) de' (j := j + 1)
          (by rw [idle.icache]; exact ending) (by omega) (by omega)
        exact ⟨st₂,i,idle.trans idle₂,place,result⟩
    · rw [if_neg (by omega)]
      exact ⟨st,j,Idle.refl st,within,rfl⟩

theorem dirlookup_none {st' : FsState} (readable : Readable dev dp m st) (ending : (st.icache dp).size.toNat = m)
    (absent : dirlookup st dp name = .ok (none,st')) : Idle st st' := by
  have small := readable.small
  rw [dirlookup_loop readable] at absent
  by_cases found : ∃ l, 16 * l < m ∧ Matches ((st.volume dev).byte (st.icache dp).inum) name l
  · obtain ⟨inside,here⟩ := Nat.find_spec found
    obtain ⟨st₁,_,result⟩ := dirlookupLoop_found (entries + 1) readable st.stack (Nat.zero_le _) inside
      (by change _ < 0 + (268435456 + 1); omega)
      (fun l _ less same => Nat.find_min found less ⟨by omega,same⟩) here
    rw [result] at absent
    generalize iget st₁ dev _ = r at absent
    cases r with
    | error e => cases absent
    | ok r => cases absent
  · obtain ⟨st₁,idle,result⟩ := @dirlookupLoop_absent dev m dp st name (entries + 1) readable st.stack 0 ending
      (by change _ < 16 * (0 + (268435456 + 1)); omega) (fun l _ inside same => found ⟨l,inside,same⟩)
    rw [result (Nat.zero_le _)] at absent
    cases absent
    exact idle

/-- `dirlink` writes the entry at a free place, or at the end. -/
theorem dirlink_wrote {st' : FsState} {inum : Nat} (readable : Readable dev dp m st)
    (ending : (st.icache dp).size.toNat = m) (room : m + 16 ≤ 71680)
    (ok : dirlink st dp name inum = .ok (0,st')) (enough : st'.exhausted = false) :
    ∃ st₁ i, Idle st st₁ ∧ 16 * i ≤ m ∧ Wrote dev dp (direntBytes name inum) (16 * i) direntSize st₁ st' := by
  unfold dirlink at ok
  split at ok
  · cases ok
  · cases ok
  · rename_i st₁ absent
    have idle₁ := dirlookup_none readable ending absent
    obtain ⟨st₂,i,idle₂,place,result⟩ := @dirlinkLoop_spec dev m dp st₁ (entries + 1) (readable.idle idle₁) st₁.stack 0
      (by rw [idle₁.icache]; exact ending) (by change _ < 16 * (0 + (268435456 + 1)); omega) (Nat.zero_le _)
    rw [Nat.mul_zero] at result
    rw [result] at ok
    dsimp only at ok
    have idle := idle₁.trans idle₂
    have readable₂ := readable.idle idle
    have filled : (st₂.volume dev).Filled (st₂.icache dp).inum := by
      have copy := FsState.volume_locked readable₂.ready.unique readable₂.ready.locked readable₂.ready.place
      intro bn less
      rw [copy,idle.icache,ending] at less
      exact readable₂.filled bn less
    have regular : (st₂.icache dp).type ≠ tDev := by
      rw [readable₂.type]
      decide
    have wrote := @writei_wrote dev dp st₂ (direntBytes name inum) (16 * i) direntSize readable₂.ready regular filled
      (by rw [idle.icache,ending]; exact place) (by change 16 * i + 16 ≤ 71680; omega)
    generalize writei st₂ dp (direntBytes name inum) (16 * i) direntSize = r at ok wrote
    obtain ⟨c,st₃⟩ := r
    dsimp only at ok wrote
    split at ok
    · rename_i short
      cases ok
      exact absurd (wrote (exhausted_of_suffix (List.suffix_cons _ _) enough)).1 short
    · cases ok
      exact ⟨st₂,i,idle,place,(wrote enough).2⟩

end loop

end Lxos.Fs
