import Lxos.Kernel.Coherence

/-! Blocks in use and blocks that are owned, over any sequence of operations. As long as
blocks and inodes last, the bitmap marks the metadata and what the inodes own, and nothing else. -/
namespace Lxos.Kernel
open Lxos.Bytes Lxos.Fs Lxos.Utils Lxos.Outcome

/-- A path walk has slot `ip`. The other references are to inodes in use. -/
structure Walking (tight : Prop) (ip : Slot) (st : FsState) : Prop where
  tidy : Tidy tight st
  used : 0 < (st.icache ip).ref
  live : ∀ s, 0 < (st.icache s).ref →
    s = ip ∧ (st.icache s).ref = 1 ∨ ((st.volume rootdev).inode (st.icache s).inum).type ≠ 0

section walk
variable {tight : Prop} {st st1 st' : FsState} {ip dp next : Slot} {n : Nat}

theorem Walking.inUse (walking : Walking tight ip st) (type : ((st.volume rootdev).inode (st.icache ip).inum).type ≠ 0) :
    st.InUse := by
  intro s used
  rcases walking.live s used with ⟨rfl,_⟩ | live
  · exact type
  · exact live

theorem Walking.start (tidy : Tidy tight st) (live : st.InUse) (used : 0 < (st.icache ip).ref) : Walking tight ip st :=
  ⟨tidy,used,fun s used => Or.inr (live s used)⟩

theorem Walking.idle (walking : Walking tight ip st) (idle : Idle st st') : Walking tight ip st' := by
  obtain ⟨tidy,volume⟩ := walking.tidy.idle idle
  refine ⟨tidy,?_,?_⟩
  · rw [idle.icache]
    exact walking.used
  · rw [idle.icache,volume]
    exact walking.live

theorem Walking.lock (walking : Walking tight ip st) : Walking tight ip (ilock st ip) := by
  obtain ⟨tidy,volume⟩ := walking.tidy.loaded walking.used
  have calm := ilock_calm st ip
  refine ⟨tidy,?_,fun s => ?_⟩
  · rw [calm.ref]
    exact walking.used
  · rw [calm.ref,calm.inum,volume]
    exact walking.live s

theorem Walking.unlock (walking : Walking tight ip st) (s : Slot) : Walking tight ip (iunlock st s) := by
  unfold iunlock
  exact walking.idle (kprint_quiet st _ (by decide))

/-- The walk ends. A slot that only it had in use is free then. -/
theorem Walking.put (walking : Walking tight ip st) : Tidy tight (iput st ip) ∧ (iput st ip).InUse := by
  obtain ⟨other,ref,_⟩ := walking.tidy.iput_slots walking.used
  obtain ⟨tidy,lasting⟩ := walking.tidy.iput walking.used
  refine ⟨tidy,fun s used' => ?_⟩
  rcases eq_or_ne s ip with rfl | away
  · rw [ref] at used'
    have more := walking.used
    have live := (walking.live s more).resolve_left (by omega)
    obtain ⟨inum,type⟩ := lasting s more (by rw [ref]; exact used')
    rw [inum,type.resolve_right fun zero => live zero.1]
    exact live
  · have used : 0 < (st.icache s).ref := by
      rw [other s away] at used'
      exact used'
    have live := (walking.live s used).resolve_left fun here => away here.1
    obtain ⟨inum,type⟩ := lasting s used used'
    rw [inum,type.resolve_right fun zero => live zero.1]
    exact live

theorem Walking.unlockput (walking : Walking tight ip st) : Tidy tight (iunlockput st ip) ∧ (iunlockput st ip).InUse :=
  (walking.unlock ip).put

/-- An inode is referenced. If it is free, no other reference is to it. -/
theorem Walking.got (tidy : Tidy tight st) (live : st.InUse) (got : Got rootdev n next st st') (place : n < st.sb.slots) :
    Walking tight next st' := by
  obtain ⟨tidy',volume⟩ := tidy.got got place
  refine ⟨tidy',got.names.1,fun s used => ?_⟩
  rw [volume]
  rcases eq_or_ne s next with rfl | away
  · rcases got.origin with ⟨names,_⟩ | ⟨_,zero,_⟩
    · have before := live s names.1
      rw [names.2.2] at before
      rw [got.inum]
      exact Or.inr before
    · refine Or.inl ⟨rfl,?_⟩
      rw [got.ref,zero]
      rfl
  · rw [got.other s away] at used ⊢
    exact Or.inr (live s used)

/-- The walk goes on from slot `ip`, which is given back, to slot `next`. -/
theorem Walking.step (walking : Walking tight ip st) (dir : IsDir st ip) (idle : Idle st st1) (got : Got rootdev n next st1 st')
    (place : n < st.sb.slots) : Walking tight next (iunlockput st' ip) := by
  have ready := walking.tidy.ready walking.used dir.1
  have live : st.InUse := walking.inUse (by rw [ready.copy,dir.2]; decide)
  obtain ⟨tidy1,volume1⟩ := walking.tidy.idle idle
  have live1 : st1.InUse := by
    unfold FsState.InUse
    rw [idle.icache,volume1]
    exact live
  have walking2 := (Walking.got tidy1 live1 got (by rw [idle.sb]; exact place)).unlock ip
  have icache : (iunlock st' ip).icache = st'.icache := iunlock_icache st' ip
  have used1 : 0 < (st1.icache ip).ref := by
    rw [idle.icache]
    exact walking.used
  have more : next = ip → 1 < (st'.icache ip).ref := by
    rintro rfl
    rw [got.ref]
    omega
  have used2 : 0 < ((iunlock st' ip).icache ip).ref := by
    rw [icache]
    rcases eq_or_ne ip next with rfl | away
    · exact got.names.1
    · rw [got.other ip away]
      exact used1
  rw [← icache] at more
  unfold iunlockput
  generalize iunlock st' ip = st2 at walking2 used2 more ⊢
  obtain ⟨other,ref,_⟩ := walking2.tidy.iput_slots used2
  obtain ⟨tidy3,lasting⟩ := walking2.tidy.iput used2
  refine ⟨tidy3,?_,fun s used' => ?_⟩
  · rcases eq_or_ne next ip with rfl | away
    · have := more rfl
      rw [ref]
      omega
    · rw [other next away]
      exact walking2.used
  · have used : 0 < (st2.icache s).ref := by
      rcases eq_or_ne s ip with rfl | away
      · exact used2
      · rw [other s away] at used'
        exact used'
    rcases walking2.live s used with ⟨rfl,one⟩ | live
    · have away : s ≠ ip := by
        rintro rfl
        have := more rfl
        omega
      rw [other s away]
      exact Or.inl ⟨rfl,one⟩
    · obtain ⟨inum,type⟩ := lasting s used used'
      rw [inum,type.resolve_right fun zero => live zero.1]
      exact Or.inr live

theorem Walking.namexLoop (parent : Bool) (fuel : Nat) (walking : Walking tight ip st) {path : List Byte} {name : Buffer}
    {r : Option Slot × Buffer × FsState} (ok : namexLoop parent fuel st ip path name = .ok r) :
    match r.1 with
    | none => Tidy tight r.2.2 ∧ r.2.2.InUse
    | some ip => Walking tight ip r.2.2 ∧ (parent = true → IsDir r.2.2 ip) := by
  induction fuel generalizing st ip path name with
  | zero => cases ok
  | succ fuel ih =>
    unfold Fs.namexLoop at ok
    cases elem : skipelem path name with
    | none =>
      rw [elem] at ok
      cases parent with
      | true =>
        obtain rfl := Except.ok.inj ok
        exact walking.put
      | false =>
        obtain rfl := Except.ok.inj ok
        exact ⟨walking,fun parent => absurd parent (by decide)⟩
    | some rest =>
      obtain ⟨rest,title⟩ := rest
      rw [elem] at ok
      have locked := walking.lock
      have valid := ilock_valid st ip
      dsimp only at ok
      generalize ilock st ip = st1 at locked valid ok
      split at ok
      · obtain rfl := Except.ok.inj ok
        exact locked.unlockput
      · rename_i directory
        have dir : IsDir st1 ip := ⟨valid,not_not.mp directory⟩
        split at ok
        · obtain rfl := Except.ok.inj ok
          exact ⟨locked.unlock ip,fun _ => dir.unlock ip⟩
        · cases looking : dirlookup st1 ip title with
          | error e =>
            rw [looking] at ok
            cases ok
          | ok answer =>
            have looked := locked.tidy.looked (locked.tidy.ready locked.used dir.1) dir.2 looking
            rw [looking] at ok
            obtain ⟨_ | ⟨next,off⟩,st2⟩ := answer
            · dsimp only at ok looked
              obtain rfl := Except.ok.inj ok
              dsimp only
              exact (locked.idle looked).unlockput
            · dsimp only at ok looked
              obtain ⟨st0,n,idle,got,place⟩ := looked
              exact ih (locked.step dir idle got place) ok

theorem Walking.namex (tidy : Tidy tight st) (live : st.InUse) {cwd : Slot} (used : 0 < (st.icache cwd).ref)
    (parent : Bool) {path : List Byte} {r : Option Slot × Buffer × FsState} (ok : namex st cwd path parent = .ok r) :
    match r.1 with
    | none => Tidy tight r.2.2 ∧ r.2.2.InUse
    | some ip => Walking tight ip r.2.2 ∧ (parent = true → IsDir r.2.2 ip) := by
  unfold Fs.namex at ok
  cases start : (if path.head? = some slash then iget st rootdev rootino else .ok (cwd,idup st cwd)) with
  | error e =>
    rw [start] at ok
    cases ok
  | ok first =>
    obtain ⟨ip,st1⟩ := first
    rw [start] at ok
    refine Walking.namexLoop parent _ ?_ ok
    split at start
    · exact Walking.got tidy live (iget_got start) tidy.volume.root
    · obtain ⟨rfl,rfl⟩ := Prod.mk.inj (Except.ok.inj start)
      obtain ⟨tidy1,volume1⟩ := tidy.recount (r := (st.icache cwd).ref + 1) fun _ => used
      refine Walking.start tidy1 (live.step (Lasting.still volume1 fun s _ => (recount_field st cwd _ s).2.1) ?_) ?_
      · exact fun s free used' => absurd (recount_used (fun _ => used) used') free
      · unfold idup
        rw [FsState.setInode_same]
        dsimp only
        omega

/-- The references stay, and the file system is tidy again. -/
structure Sustained (tight : Prop) (st st' : FsState) : Prop where
  tidy : Tidy tight st'
  lasting : Lasting st st'
  firm : Firm st st'

theorem Sustained.trans (first : Sustained tight st st1) (second : Sustained tight st1 st') : Sustained tight st st' := by
  refine ⟨second.tidy,first.lasting.trans second.lasting fun s used _ => ?_,first.firm.trans second.firm⟩
  rw [(first.firm s).1]
  exact used

theorem Sustained.idle (tidy : Tidy tight st) (idle : Idle st st') : Sustained tight st st' := by
  obtain ⟨tidy',volume⟩ := tidy.idle idle
  exact ⟨tidy',Lasting.still volume fun s _ => by rw [idle.icache],Firm.same idle.icache⟩

theorem Sustained.used (sustained : Sustained tight st st') (used : 0 < (st.icache ip).ref) : 0 < (st'.icache ip).ref := by
  rw [(sustained.firm ip).1]
  exact used

theorem Sustained.inUse (sustained : Sustained tight st st') (live : st.InUse) : st'.InUse := by
  refine live.step sustained.lasting fun s free used => absurd ?_ free
  rw [← (sustained.firm s).1]
  exact used

theorem Sustained.isDir (sustained : Sustained tight st st') (tidy : Tidy tight st) (used : 0 < (st.icache ip).ref)
    (dir : IsDir st ip) : IsDir st' ip := by
  have used' := sustained.used used
  have valid := (sustained.firm ip).2 used dir.1
  obtain ⟨inum,type⟩ := sustained.lasting ip used used'
  have copy := (tidy.ready used dir.1).copy
  have copy' := (sustained.tidy.ready used' valid).copy
  rw [inum] at copy'
  rw [copy,copy',dir.2] at type
  refine ⟨valid,type.resolve_right fun zero => ?_⟩
  exact absurd zero.1 (by decide)

theorem Sustained.dirlink (tidy : Tidy tight st) (used : 0 < (st.icache dp).ref) (dir : IsDir st dp)
    (named : 0 < (st.icache ip).ref) {name : Buffer} {r : Int × FsState} (ok : dirlink st dp name (st.icache ip).inum = .ok r)
    (enough : r.2.exhausted = false) : Sustained tight st r.2 := by
  obtain ⟨tidy',lasting,firm⟩ := tidy.dirlink (tidy.ready used dir.1) dir.2 (tidy.held ip named).2 ok enough
  exact ⟨tidy',lasting,firm⟩

theorem createDots_sustained (tidy : Tidy tight st) (parent : 0 < (st.icache dp).ref) (loaded : (st.icache dp).valid = true)
    (used : 0 < (st.icache ip).ref) (dir : IsDir st ip) (ok : createDots st dp ip = .ok st') (enough : st'.exhausted = false) :
    Sustained tight st st' := by
  obtain ⟨tidy1,lasting,firm⟩ := tidy.relink parent loaded ((st.icache dp).nlink + 1)
  have first : Sustained tight st _ := ⟨tidy1,lasting,firm⟩
  unfold createDots at ok
  dsimp only at ok
  generalize iupdate (st.setDinode dp { (st.icache dp).toDinode with nlink := (st.icache dp).nlink + 1 }) dp = st1 at ok first
  cases linking : dirlink st1 ip (bytes [46]) (st1.icache ip).inum with
  | error e =>
    rw [linking] at ok
    cases ok
  | ok answer =>
    obtain ⟨r,st2⟩ := answer
    rw [linking] at ok
    dsimp only at ok
    have second := Sustained.dirlink first.tidy (first.used used) (first.isDir tidy used dir) (first.used used) linking
    split at ok
    · obtain rfl := Except.ok.inj ok
      have printed := kprint_idle st2 (m := .createDots) (by decide)
      have second := second (exhausted_of_suffix printed.trace enough)
      exact (first.trans second).trans (Sustained.idle second.tidy printed)
    · cases linking' : dirlink st2 ip (bytes [46,46]) (st2.icache dp).inum with
      | error e =>
        rw [linking'] at ok
        cases ok
      | ok answer =>
        obtain ⟨r',st3⟩ := answer
        rw [linking'] at ok
        obtain rfl := Except.ok.inj ok
        have printed := kprint_quiet st3 (r' < 0) (show Message.createDots ≠ .ballocOut ∧ Message.createDots ≠ .iallocOut by decide)
        have enough3 : st3.exhausted = false := exhausted_of_suffix printed.trace enough
        have second := first.trans (second (exhausted_of_suffix (trace_since ((dirlink_nests st2 ip _ _).elim linking')) enough3))
        have third := Sustained.dirlink second.tidy (second.used used) (second.isDir tidy used dir) (second.used parent) linking' enough3
        exact (second.trans third).trans (Sustained.idle third.tidy printed)

/-- `create` where the name is not there, the directory `dp` being loaded. -/
theorem createNew_tidy (tidy : Tidy tight st) (live : st.InUse) (used : 0 < (st.icache dp).ref) (dir : IsDir st dp)
    {name : Buffer} {type major minor : BitVec 16} (some_type : type ≠ 0) {r : Slot × FsState}
    (ok : createNew st dp name type major minor = .ok r) (enough : r.2.exhausted = false) : Tidy tight r.2 ∧ r.2.InUse := by
  unfold createNew at ok
  rw [(tidy.held dp used).1] at ok
  cases allocating : ialloc st rootdev type with
  | error e =>
    rw [allocating] at ok
    cases ok
  | ok answer =>
    obtain ⟨_ | ip,st1⟩ := answer
    · rw [allocating] at ok
      cases ok
    rw [allocating] at ok
    dsimp only at ok
    obtain ⟨k,claimed⟩ := iallocLoop_claimed _ (le_refl 1) allocating
    have created : Created tight type ip st (createInode st1 ip major minor) := tidy.created claimed major minor
    generalize createInode st1 ip major minor = st2 at ok created
    have ready := created.tidy.ready created.used created.valid
    have apart := created.apart dp used (live dp used)
    have live2 : st2.InUse := by
      refine live.step (created.lasting (Or.inr live)) fun s free used' => ?_
      have here : s = ip := by
        by_contra away
        rw [created.other s away] at used'
        exact free used'
      subst here
      rw [ready.copy,created.fresh live]
      exact some_type
    have used2 : 0 < (st2.icache dp).ref := by
      rw [created.other dp apart]
      exact used
    have dir2 : IsDir st2 dp := by
      unfold IsDir
      rw [created.other dp apart]
      exact dir
    cases dots : (if type = tDir then createDots st2 dp ip else .ok st2) with
    | error e =>
      rw [dots] at ok
      cases ok
    | ok st3 =>
      rw [dots] at ok
      dsimp only at ok
      cases linking : dirlink st3 dp name (st3.icache ip).inum with
      | error e =>
        rw [linking] at ok
        cases ok
      | ok answer =>
        obtain ⟨r',st4⟩ := answer
        rw [linking] at ok
        obtain rfl := Except.ok.inj ok
        have printed := kprint_quiet st4 (r' < 0)
          (show Message.createDirlink ≠ .ballocOut ∧ Message.createDirlink ≠ .iallocOut by decide)
        have enough4 : st4.exhausted = false :=
          exhausted_of_suffix (printed.trace.trans (trace_since (iunlockput_nests _ dp))) enough
        have enough3 : st3.exhausted = false :=
          exhausted_of_suffix (trace_since ((dirlink_nests st3 dp _ _).elim linking)) enough4
        have first : Sustained tight st2 st3 := by
          split at dots
          · rename_i directory
            refine createDots_sustained created.tidy used2 dir2.1 created.used ⟨created.valid,?_⟩ dots enough3
            rw [created.fresh live]
            exact directory
          · obtain rfl := Except.ok.inj dots
            exact ⟨created.tidy,Lasting.refl _,Firm.same rfl⟩
        have second := first.trans (Sustained.dirlink first.tidy (first.used used2) (first.isDir created.tidy used2 dir2)
          (first.used created.used) linking enough4)
        have all := second.trans (Sustained.idle second.tidy printed)
        exact (Walking.start all.tidy (all.inUse live2) (all.used used2)).unlockput

theorem create_tidy (tidy : Tidy tight st) (live : st.InUse) {cwd : Slot} (used : 0 < (st.icache cwd).ref) {path : List Byte}
    {type major minor : BitVec 16} (some_type : type ≠ 0) {r : Option Slot × FsState}
    (ok : create st cwd path type major minor = .ok r) (enough : r.2.exhausted = false) : Tidy tight r.2 ∧ r.2.InUse := by
  unfold create nameiparent at ok
  cases walk : namex st cwd path true with
  | error e =>
    rw [walk] at ok
    cases ok
  | ok answer =>
    have walking := Walking.namex tidy live used true walk
    obtain ⟨_ | dp,name,st1⟩ := answer
    · rw [walk] at ok
      obtain rfl := Except.ok.inj ok
      exact walking
    rw [walk] at ok
    obtain ⟨walking,dir⟩ := walking
    have locked := walking.lock
    have dir := (dir rfl).lock
    dsimp only at ok locked dir
    generalize ilock st1 dp = st2 at ok locked dir
    cases looking : dirlookup st2 dp name with
    | error e =>
      rw [looking] at ok
      cases ok
    | ok answer =>
      have looked := locked.tidy.looked (locked.tidy.ready locked.used dir.1) dir.2 looking
      rw [looking] at ok
      obtain ⟨_ | ⟨ip,off⟩,st3⟩ := answer
      · dsimp only at ok looked
        cases entering : createNew st3 dp name type major minor with
        | error e =>
          rw [entering] at ok
          cases ok
        | ok answer =>
          obtain ⟨ip,st4⟩ := answer
          rw [entering] at ok
          obtain rfl := Except.ok.inj ok
          have here := locked.idle looked
          have dir3 : IsDir st3 dp := by
            unfold IsDir
            rw [looked.icache]
            exact dir
          have copy := (here.tidy.ready here.used dir3.1).copy
          exact createNew_tidy here.tidy (here.inUse (by rw [copy,dir3.2]; decide)) here.used dir3 some_type entering enough
      · dsimp only at ok looked
        obtain ⟨st0,n,idle,got,place⟩ := looked
        have found := (locked.step dir idle got place).lock
        have valid := ilock_valid (iunlockput st3 dp) ip
        generalize ilock (iunlockput st3 dp) ip = st4 at ok found valid
        split at ok
        · rename_i file
          obtain rfl := Except.ok.inj ok
          have copy := (found.tidy.ready found.used valid).copy
          exact ⟨found.tidy,found.inUse (by rw [copy,file.2]; decide)⟩
        · obtain rfl := Except.ok.inj ok
          exact found.unlockput

end walk

/-- A call, with what its callers see to: slots are referenced, and loaded where files are read
or written; files alone are written directly, and entries are for inodes of the table. -/
inductive Operation : FsState → FsState → Prop
  | ilock (st : FsState) (ip : Slot) (used : 0 < (st.icache ip).ref) : Operation st (ilock st ip)
  | ialloc (st st' : FsState) (ip : Slot) (type : BitVec 16) (some_type : type ≠ 0)
    (ok : ialloc st rootdev type = .ok (some ip,st')) : Operation st st'
  | readi (st : FsState) (ip : Slot) (dst : Buffer) (off n : Nat) (used : 0 < (st.icache ip).ref)
    (valid : (st.icache ip).valid = true) (width : n < 4294967296) : Operation st (readi st ip dst off n).2.2
  | writei (st : FsState) (ip : Slot) (src : Buffer) (off n : Nat) (used : 0 < (st.icache ip).ref)
    (valid : (st.icache ip).valid = true) (file : (st.icache ip).type ≠ tDir) (width : n < 4294967296) :
    Operation st (writei st ip src off n).2
  | dirlink (st : FsState) (dp : Slot) (name : Buffer) (n : Nat) (r : Int × FsState) (used : 0 < (st.icache dp).ref)
    (dir : IsDir st dp) (inside : n < st.sb.slots) (ok : dirlink st dp name n = .ok r) : Operation st r.2
  | create (st : FsState) (cwd : Slot) (path : List Byte) (type major minor : BitVec 16) (r : Option Slot × FsState)
    (used : 0 < (st.icache cwd).ref) (some_type : type ≠ 0) (ok : create st cwd path type major minor = .ok r) :
    Operation st r.2
  | iput (st : FsState) (ip : Slot) (used : 0 < (st.icache ip).ref) : Operation st (iput st ip)

/-- The bitmap marks the metadata and the blocks of the inodes, and no block has two places. -/
structure Balanced (v : Volume) : Prop where
  marks : ∀ b < v.sb.size, v.marked b ↔ b < v.sb.nmeta ∨ ∃ p, v.ref p = b
  once : ∀ p q, v.ref p ≠ 0 → v.ref p = v.ref q → p = q

section operation
variable {st st' : FsState}

theorem Operation.trace (operation : Operation st st') : st.trace <:+ st'.trace := by
  cases operation with
  | ilock ip _ => exact (ilock_calm st ip).trace
  | ialloc _ ip type _ ok => exact trace_since ((ialloc_nests st rootdev type).elim ok)
  | readi ip dst off n _ _ _ => exact (readi_mapped st ip dst off n).toLocal.trace
  | writei ip src off n _ _ _ _ => exact (writei_local st ip src off n).trace
  | dirlink dp name n r _ _ _ ok => exact trace_since ((dirlink_nests st dp name n).elim ok)
  | create cwd path type major minor r _ _ ok => exact trace_since ((create_nests st cwd path type major minor).elim ok)
  | iput ip _ => exact iput_trace st ip

theorem Operation.step (operation : Operation st st') (tidy : Tidy True st) (live : st.InUse) (enough : st'.exhausted = false) :
    Tidy True st' ∧ st'.InUse := by
  have typed {ip : Slot} (used : 0 < (st.icache ip).ref) (valid : (st.icache ip).valid = true) : (st.icache ip).type ≠ 0 := by
    rw [← (tidy.ready used valid).copy]
    exact live ip used
  cases operation with
  | ilock ip used =>
    have locked := (Walking.start tidy live used).lock
    obtain ⟨tidy',volume⟩ := tidy.loaded used
    have calm := ilock_calm st ip
    refine ⟨tidy',fun s => ?_⟩
    rw [calm.ref,calm.inum,volume]
    exact live s
  | ialloc _ ip type some_type ok =>
    obtain ⟨k,claimed⟩ := iallocLoop_claimed _ (le_refl 1) ok
    have layout : st.sb.Layout := tidy.volume.sound.layout
    have place := Nat.lt_of_lt_of_le claimed.bound layout.count
    have unused := tidy.unused claimed.free place
    have fresh (s : Slot) : ¬st.Names rootdev k s := by
      rintro ⟨used,_,rfl⟩
      exact live s used unused
    have acquired := (claimed.acquired fresh place).1
    obtain ⟨tidy',lasting,inode⟩ := tidy.acquired acquired (Or.inl ⟨rfl,rfl,unused⟩)
    refine ⟨tidy',live.step (lasting (Or.inr (Or.inr fresh))) fun s free used' => ?_⟩
    have here : s = ip := by
      by_contra away
      rw [acquired.other s away] at used'
      exact free used'
    rw [here,acquired.inum,inode]
    exact some_type
  | readi ip dst off n used valid width =>
    have kept := Sustained.idle tidy (tidy.read used valid (fun _ => typed used valid) dst off width)
    exact ⟨kept.tidy,kept.inUse live⟩
  | writei ip src off n used valid file width =>
    obtain ⟨tidy',lasting⟩ := tidy.write used valid (fun _ => typed used valid) file width enough
    have kept : Sustained True st _ := ⟨tidy',lasting,(writei_local st ip src off n).firm⟩
    exact ⟨kept.tidy,kept.inUse live⟩
  | dirlink dp name n r used dir inside ok =>
    obtain ⟨tidy',lasting,firm⟩ := tidy.dirlink (tidy.ready used dir.1) dir.2 inside ok enough
    have kept : Sustained True st r.2 := ⟨tidy',lasting,firm⟩
    exact ⟨kept.tidy,kept.inUse live⟩
  | create cwd path type major minor r used some_type ok => exact create_tidy tidy live used some_type ok enough
  | iput ip used => exact (Walking.start tidy live used).put

theorem operations_tidy (tidy : Tidy True st) (live : st.InUse) (run : Relation.ReflTransGen Operation st st')
    (enough : st'.exhausted = false) : Tidy True st' ∧ st'.InUse := by
  induction run with
  | refl => exact ⟨tidy,live⟩
  | tail _ operation ih =>
    obtain ⟨before,live'⟩ := ih (exhausted_of_suffix operation.trace enough)
    exact operation.step before live' enough

theorem Balanced.of_tidy {v : Volume} (tidy : v.Tidy True) : Balanced v := by
  refine ⟨fun b bound => ⟨(tidy.tight trivial).exact b bound,?_⟩,tidy.sound.exclusive⟩
  rintro (reserved | ⟨p,rfl⟩)
  · exact tidy.sound.reserved b reserved
  · rcases eq_or_ne ((v.ref p)) 0 with zero | some
    · rw [zero]
      exact tidy.sound.reserved 0 Volume.nmeta_positive
    · exact tidy.sound.held p some

/-- As long as there are blocks and inodes, the bitmap stays in balance with what the inodes own. -/
theorem blocks_balanced (tidy : Tidy True st) (live : st.InUse) (run : Relation.ReflTransGen Operation st st')
    (enough : st'.exhausted = false) : Balanced (st'.volume rootdev) ∧
      st'.volume rootdev = Volume.ofDisk st'.sb (st'.disk rootdev) := by
  have after := (operations_tidy tidy live run enough).1
  exact ⟨Balanced.of_tidy after.volume,after.mounted.volume⟩

/-- On a fresh image of one empty file the root is locked. -/
theorem blocks_balanced_start : ∃ image, mkfs [emptyFile] = some image ∧
    Balanced ((ilock (uinitState ⟨fun _ _ => .zero,fun _ => zeros,[],[]⟩ 1 2 (fun _ => image.sectors) zeros).fs 0).volume
      rootdev) := by
  obtain ⟨image,made⟩ := @mkfs_room [emptyFile] (by decide) (by decide)
  obtain ⟨t,lists,finished,blank⟩ := mkfs_blank (by decide) made
  obtain ⟨tidy,live⟩ := @uinitState_tidy True _ _ _ (fun _ => image.sectors) lists finished (by decide) (by decide) blank rfl
    ⟨fun _ _ => .zero,fun _ => zeros,[],[]⟩ 1 2 zeros
  have used : 0 < ((uinitState ⟨fun _ _ => .zero,fun _ => zeros,[],[]⟩ 1 2 (fun _ => image.sectors) zeros).fs.icache 0).ref :=
    Int.one_pos
  have enough := (ilock_loaded (tidy.named used)).exhausted
  exact ⟨image,made,(blocks_balanced tidy live (.single (.ilock _ 0 used)) enough).1⟩

end operation

/-- A free dinode with a block. -/
def relic : Dinode := { Dinode.zero with addrs := fun i => if i = 0 then 4 else 0 }

/-- Inode 2 is free, and has block 4. -/
def leaky : FsState :=
  ⟨fun _ b => if b = 2 then relic.encode (vacant.encode zeros 64) 128 else if b = 3 then blit zeros 0 1 (fun _ => 31) else zeros,
    blank.sb,fun s => if s = 0 then ⟨Dinode.zero,1,1,1,false⟩ else ⟨Dinode.zero,0,0,0,false⟩,zeros,[]⟩

/-- A file system with no inode loaded. -/
theorem unloaded_inode {st : FsState} (unloaded : ∀ s, (st.icache s).valid = false) (k : Nat) :
    (st.volume rootdev).inode k = if k < st.sb.slots then st.table rootdev k else Dinode.zero := by
  have none (s : Slot) : ¬st.Locked rootdev s := fun locked => by
    have valid := locked.2.2
    rw [unloaded s] at valid
    cases valid
  split
  · rename_i inside
    rw [FsState.volume_inode inside,FsState.dinode_unlocked fun s locked => absurd locked (none s)]
  · rename_i outside
    exact FsState.volume_rest (Nat.not_lt.mp outside)

theorem leaky_inode (k : Nat) : (leaky.volume rootdev).inode k =
    if k < leaky.sb.slots then leaky.table rootdev k else Dinode.zero := unloaded_inode (by decide) k

theorem leaky_ref (p : Nat × Nat) : (leaky.volume rootdev).ref p = if p = (2,0) then 4 else 0 := by
  have addrs : ∀ k < 8, ∀ i < 13, (leaky.table rootdev k).addr i = if k = 2 ∧ i = 0 then 4 else 0 := by decide
  refine Volume.ref_single (show 2 < leaky.sb.slots by decide) (fun i low => ?_) (fun k away i low => ?_) p
  · rw [leaky_inode,if_pos (by decide),addrs 2 (by decide) i low]
    simp
  · rw [leaky_inode]
    split
    · rename_i inside
      rw [addrs k inside i low,if_neg fun h => away h.1]
    · exact Dinode.addr_zero i

theorem leaky_balanced : Balanced (leaky.volume rootdev) := by
  have bits : ∀ b < 16, (leaky.disk rootdev (leaky.sb.bblock b) (b % bpb / 8)).getLsbD (b % 8) = decide (b < 5) := by decide
  have reserve : (leaky.volume rootdev).sb.nmeta = 4 := (by decide : leaky.sb.nmeta = 4)
  refine ⟨fun b bound => ?_,fun p q some same => ?_⟩
  · have marks : (leaky.volume rootdev).marked b ↔ b < 5 := by
      refine Iff.trans (b := decide (b < 5) = true) ?_ decide_eq_true_iff
      rw [← bits b bound]
      exact Iff.rfl
    rw [marks,reserve]
    constructor
    · intro low
      rcases Nat.lt_succ_iff_lt_or_eq.mp low with reserved | rfl
      · exact Or.inl reserved
      · exact Or.inr ⟨(2,0),(leaky_ref _).trans (if_pos rfl)⟩
    · rintro (reserved | ⟨p,rfl⟩)
      · omega
      · rw [leaky_ref]
        split <;> omega
  · rw [leaky_ref] at some
    rw [leaky_ref,leaky_ref] at same
    split at some
    · rename_i here
      rw [if_pos here] at same
      split at same
      · rename_i there
        exact here.trans there.symm
      · cases same
    · exact absurd rfl some

/-- `ialloc` clears the dinode, and nobody gives block 4 back. -/
theorem blocks_leak : ¬∀ st st' : FsState, Balanced (st.volume rootdev) →
    (∀ n, ((st.volume rootdev).inode n).type = tFile ∨ ((st.volume rootdev).inode n).type = tDir →
      (st.volume rootdev).Filled n) →
    (∀ s, st.Locked rootdev s → (st.icache s).toDinode = st.table rootdev (st.icache s).inum) →
    Relation.ReflTransGen Operation st st' → st'.exhausted = false → Balanced (st'.volume rootdev) := by
  intro claim
  have filled (n : Nat) (_ : ((leaky.volume rootdev).inode n).type = tFile ∨ ((leaky.volume rootdev).inode n).type = tDir) :
      (leaky.volume rootdev).Filled n := by
    have empty : ∀ k < 8, (leaky.table rootdev k).size = 0 := by decide
    intro bn below
    rw [leaky_inode] at below
    split at below
    · rename_i inside
      rw [empty n inside] at below
      exact absurd below (Nat.not_lt_zero _)
    · exact absurd below (Nat.not_lt_zero _)
  obtain ⟨ip,st',allocated,enough,unloaded,slots,bit,addr⟩ : ∃ ip st', ialloc leaky rootdev tFile = .ok (some ip,st') ∧
      st'.exhausted = false ∧ (∀ s, (st'.icache s).valid = false) ∧ st'.sb = leaky.sb ∧
      (st'.disk rootdev (st'.sb.bblock 4) (4 % bpb / 8)).getLsbD (4 % 8) = true ∧
      ∀ k < 8, ∀ i < 13, (st'.table rootdev k).addr i = 0 := by
    refine ⟨_,_,rfl,?_⟩
    decide
  have locked (s : Slot) : ¬leaky.Locked rootdev s := fun locked => by
    have valid : (leaky.icache s).valid = false := (by decide : ∀ s, (leaky.icache s).valid = false) s
    rw [locked.2.2] at valid
    cases valid
  have after := claim leaky st' leaky_balanced filled (fun s here => absurd here (locked s))
    (.single (.ialloc _ _ ip tFile (by decide) allocated)) enough
  have absent (p : Nat × Nat) : (st'.volume rootdev).ref p = 0 := by
    refine Volume.ref_absent ?_ p.2
    rw [unloaded_inode unloaded]
    split
    · rename_i inside
      rw [slots] at inside
      exact addr p.1 inside
    · exact fun i _ => Dinode.addr_zero i
  have bound : 4 < st'.sb.size := by
    rw [slots]
    decide
  rcases (after.marks 4 bound).mp bit with reserved | ⟨p,here⟩
  · change 4 < st'.sb.nmeta at reserved
    rw [slots] at reserved
    exact absurd reserved (by decide)
  · rw [absent] at here
    cases here

end Lxos.Kernel
