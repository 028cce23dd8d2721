import Lxos.Fs.Intact

/-! Operations after any of whose writes the machine may stop: the disk is intact then. -/
namespace Lxos.Fs
open Lxos.Bytes

/-- Directories and references lead to inodes with links. -/
structure FsState.Linked (st : FsState) : Prop where
  volume : (st.volume rootdev).Linked
  held : ∀ s, 0 < (st.icache s).ref → (st.volume rootdev).Live (st.icache s).inum

/-- A disk with this superblock is intact. -/
abbrev Survives (sb : Superblock) (image : Nat → Block) : Prop := (Volume.ofDisk sb image).Intact

/-- An operation that a crash at any time does no harm. -/
structure Carried (tight : Prop) (st st' : FsState) : Prop where
  tidy : Tidy tight st'
  linked : st'.Linked
  sb : st'.sb = st.sb
  through : Through rootdev (Survives st.sb) st st'

section carried
variable {tight : Prop} {st st1 st' : FsState} {ip dp s : Slot} {k n off : Nat} {src : Buffer}

theorem Tidy.survives (tidy : Tidy tight st) (linked : (st.volume rootdev).Linked) : Survives st.sb (st.disk rootdev) := by
  unfold Survives
  rw [← tidy.mounted.volume]
  exact ⟨tidy.volume.sound,fun j n leads => (linked.leads j n leads).1⟩

theorem Carried.trans (first : Carried tight st st1) (second : Carried tight st1 st') : Carried tight st st' := by
  obtain ⟨tidy,linked,sb,through⟩ := second
  rw [first.sb] at through
  exact ⟨tidy,linked,sb.trans first.sb,first.through.trans through⟩

/-- The volume stays, and the references are to inodes with links. -/
theorem Carried.still (linked : st.Linked) (after : Tidy tight st' ∧ st'.volume rootdev = st.volume rootdev)
    (held : ∀ s, 0 < (st'.icache s).ref → (st.volume rootdev).Live (st'.icache s).inum)
    (through : Through rootdev (Survives st.sb) st st') : Carried tight st st' := by
  obtain ⟨tidy,volume⟩ := after
  refine ⟨tidy,⟨?_,?_⟩,congrArg Volume.sb volume,through⟩
  · rw [volume]
    exact linked.volume
  · rw [volume]
    exact held

theorem Carried.refl (tidy : Tidy tight st) (linked : st.Linked) : Carried tight st st :=
  Carried.still linked ⟨tidy,rfl⟩ linked.held (Through.refl (tidy.survives linked.volume))

theorem Carried.idle (tidy : Tidy tight st) (linked : st.Linked) (idle : Idle st st')
    (through : Through rootdev (Survives st.sb) st st') : Carried tight st st' := by
  refine Carried.still linked (tidy.idle idle) ?_ through
  rw [idle.icache]
  exact linked.held

theorem Carried.print (tidy : Tidy tight st) (linked : st.Linked) {m : Message} (quiet : m ≠ .ballocOut ∧ m ≠ .iallocOut) :
    Carried tight st (kprint st m) :=
  Carried.idle tidy linked (kprint_idle st quiet) (Through.print (tidy.survives linked.volume) m)

/-- A reference to an inode with links. -/
theorem Carried.got (tidy : Tidy tight st) (linked : st.Linked) (got : Got rootdev n ip st st') (place : n < st.sb.slots)
    (live : (st.volume rootdev).Live n) : Carried tight st st' := by
  refine Carried.still linked (tidy.got got place) (fun s used => ?_)
    (Through.quiet got.trace got.disk (tidy.survives linked.volume))
  rcases eq_or_ne s ip with rfl | away
  · rw [got.inum]
    exact live
  · rw [got.other s away] at used ⊢
    exact linked.held s used

theorem Carried.recount (tidy : Tidy tight st) (linked : st.Linked) {r : Int} (positive : 0 < r → 0 < (st.icache ip).ref) :
    Carried tight st (st.setInode ip { st.icache ip with ref := r }) := by
  refine Carried.still linked (tidy.recount positive) (fun s used => ?_)
    (Through.quiet rfl rfl (tidy.survives linked.volume))
  rw [(recount_field st ip r s).2.1]
  exact linked.held s (recount_used positive used)

theorem Carried.lock (tidy : Tidy tight st) (linked : st.Linked) (used : 0 < (st.icache ip).ref) :
    Carried tight st (ilock st ip) := by
  have calm := ilock_calm st ip
  refine Carried.still linked (tidy.loaded used) (fun s => ?_) (ilock_through (tidy.survives linked.volume) ip)
  rw [calm.ref,calm.inum]
  exact linked.held s

/-- Inodes with links are not truncated. -/
theorem Carried.put (tidy : Tidy tight st) (linked : st.Linked) (used : 0 < (st.icache ip).ref) :
    Carried tight st (iput st ip) := by
  have kept : ¬((st.icache ip).valid = true ∧ (st.icache ip).nlink = 0 ∧ (st.icache ip).ref = 1) := by
    rintro ⟨valid,linkless,_⟩
    refine (linked.held ip used).2 ?_
    rw [(tidy.ready used valid).copy]
    exact linkless
  unfold iput
  dsimp only
  rw [if_neg kept]
  exact Carried.recount tidy linked fun _ => used

theorem Carried.read (tidy : Tidy tight st) (linked : st.Linked) (used : 0 < (st.icache ip).ref)
    (valid : (st.icache ip).valid = true) (dst : Buffer) (off : Nat) (width : n < 4294967296) :
    Carried tight st (readi st ip dst off n).2.2 := by
  have ready := tidy.ready used valid
  have in_use : (st.icache ip).type ≠ 0 := by
    rw [← ready.copy]
    exact (linked.held ip used).1
  refine Carried.idle tidy linked (tidy.read used valid (fun _ => in_use) dst off width) ?_
  by_cases device : (st.icache ip).type = tDev
  · rw [readi_device device]
    exact Through.refl (tidy.survives linked.volume)
  · exact readi_through ready (tidy.filled ready device fun _ => in_use) Volume.Intact.allots (tidy.survives linked.volume) dst off width

/-- A disk on which the inode in slot `ip` is being written. -/
theorem midway_survives {t : Nat} (tidy : Tidy tight st) (linked : st.Linked) (ready : Ready rootdev ip st)
    (midway : Midway rootdev ip src off t st st')
    (leads : ((st.volume rootdev).inode (st.icache ip).inum).type = tDir → ∀ i name n,
      16 * i < ((st.volume rootdev).inode (st.icache ip).inum).size.toNat →
      table ((st'.volume rootdev).byte (st.icache ip).inum) i = some (name,n) → (st.volume rootdev).Live n) :
    Survives st.sb (st'.disk rootdev) := by
  obtain ⟨st1,written,grown⟩ := midway
  have frame := grown.frame
  rw [written.change.inum] at frame
  have both := written.frame.trans frame
  have sb : st'.sb = st.sb := both.sb
  have sb1 : st1.sb = st.sb := written.frame.sb
  have layout : st.sb.Layout := ready.sound.layout
  have disk : Volume.ofDisk st.sb (st'.disk rootdev) = ⟨st'.sb,(st.volume rootdev).inode,st'.disk rootdev⟩ := by
    rw [tidy.mounted.volume,sb]
    unfold Volume.ofDisk
    dsimp only
    congr 1
    funext j
    split
    · rename_i inside
      have low := (layout.iblock_range inside).2
      rw [grown.table _ (by rw [sb1]; exact low),written.table _ low]
    · rfl
  unfold Survives
  rw [disk]
  exact Volume.Intact.lag tidy.volume linked.volume grown.sound both leads

/-- After a change of one inode. -/
theorem FsState.Linked.framed {used used' : Nat → Prop} (linked : st.Linked) (change : Local ip st st')
    (frame : Volume.Frame used used' k (st.volume rootdev) (st'.volume rootdev))
    (volume : (st'.volume rootdev).Linked) : st'.Linked := by
  refine ⟨volume,fun s used => ?_⟩
  rw [change.ref] at used
  rw [change.inum]
  unfold Volume.Live
  rw [(frame.kind _).1,(frame.kind _).2]
  exact linked.held s used

theorem Carried.wrote (tidy : Tidy tight st) (linked : st.Linked) (ready : Ready rootdev ip st)
    (regular : (st.icache ip).type ≠ tDev) (start : off ≤ (st.icache ip).size.toNat) (room : off + n ≤ 71680)
    (enough : (writei st ip src off n).2.exhausted = false)
    (listing : (st.icache ip).type = tDir → ((writei st ip src off n).2.volume rootdev).Entries (st.icache ip).inum)
    (leads : (st.icache ip).type = tDir → ∀ t byte, Pause off n t →
      (∀ o, byte o = if off ≤ o ∧ o < off + t then src (o - off) else (st.volume rootdev).byte (st.icache ip).inum o) →
      ∀ i name n, 16 * i < max (st.icache ip).size.toNat (off + t) → table byte i = some (name,n) → (st.volume rootdev).Live n) :
    Carried tight st (writei st ip src off n).2 := by
  have copy := ready.copy
  have in_use : (st.icache ip).type ≠ 0 := by
    rw [← copy]
    exact (linked.held ip ready.locked.1).1
  have wrote := (writei_wrote ready regular (tidy.filled ready regular fun _ => in_use) start room enough).2
  have after := (tidy.wrote ready wrote (fun _ => in_use) listing).1
  have volume : ((writei st ip src off n).2.volume rootdev).Linked := by
    refine linked.volume.frame wrote.frame fun directory i name m low entry => ?_
    rw [copy] at directory
    rw [wrote.size,copy] at low
    exact leads directory n _ ⟨le_refl n,Or.inr (Or.inl rfl)⟩ wrote.byte i name m low entry
  refine ⟨after,linked.framed wrote.change wrote.frame volume,wrote.frame.sb,?_⟩
  refine writei_through ready Volume.Intact.allots regular start room enough (fun t st1 pause midway => ?_) ?_
  · refine midway_survives tidy linked ready midway fun directory i name m low entry => ?_
    obtain ⟨st2,written,grown⟩ := midway
    have byte := grown.byte
    rw [copy] at directory low
    refine leads directory t _ pause (fun o => ?_) i name m (lt_of_lt_of_le low (le_max_left _ _)) entry
    rw [byte]
    exact written.byte o
  · have sb : (writei st ip src off n).2.sb = st.sb := wrote.frame.sb
    rw [← sb]
    exact after.survives volume

theorem Carried.write (tidy : Tidy tight st) (linked : st.Linked) (used : 0 < (st.icache ip).ref)
    (valid : (st.icache ip).valid = true) (file : (st.icache ip).type ≠ tDir) (width : n < 4294967296)
    (enough : (writei st ip src off n).2.exhausted = false) : Carried tight st (writei st ip src off n).2 := by
  rcases eq_or_ne (st.icache ip).type tDev with device | regular
  · rw [writei_device device]
    exact Carried.refl tidy linked
  by_cases bad : off > (st.icache ip).size.toNat ∨ 71680 < off + n
  · rw [writei_refused regular width bad]
    exact Carried.refl tidy linked
  · obtain ⟨start,room⟩ := not_or.mp bad
    exact Carried.wrote tidy linked (tidy.ready used valid) regular (Nat.not_lt.mp start) (Nat.not_lt.mp room) enough
      (fun directory => absurd directory file) fun directory => absurd directory file

theorem FsState.Linked.place (live : (st.volume rootdev).Live n) : n < st.sb.slots := by
  by_contra outside
  refine live.1 ?_
  rw [FsState.volume_rest (Nat.not_lt.mp outside)]
  rfl

/-- A name is not found, or leads to an inode with links. -/
theorem FsState.Linked.looked (linked : st.Linked) (tidy : Tidy tight st) (ready : Ready rootdev dp st)
    (type : (st.icache dp).type = tDir) {name : Buffer} {r : Option (Slot × Nat) × FsState}
    (ok : dirlookup st dp name = .ok r) :
    match r.1 with
    | none => Idle st r.2
    | some (ip,_) => ∃ st1 n, Idle st st1 ∧ Got rootdev n ip st1 r.2 ∧ (st.volume rootdev).Live n := by
  have answered := tidy.answered ready type ok
  obtain ⟨_ | ⟨ip,off⟩,st'⟩ := r
  · exact answered
  · obtain ⟨st1,n,idle,got,i,title,inside,here⟩ := answered
    rw [← ready.copy] at type
    exact ⟨st1,n,idle,got,linked.volume.leads _ n ⟨type,i,title,inside,here⟩⟩

theorem Carried.lookup (tidy : Tidy tight st) (linked : st.Linked) (ready : Ready rootdev dp st)
    (type : (st.icache dp).type = tDir) {name : Buffer} {r : Option (Slot × Nat) × FsState}
    (ok : dirlookup st dp name = .ok r) : Carried tight st r.2 := by
  have through := dirlookup_through ready (tidy.directory ready type) Volume.Intact.allots (tidy.survives linked.volume) ok
  have looked := linked.looked tidy ready type ok
  obtain ⟨_ | ⟨ip,off⟩,st'⟩ := r
  · exact Carried.idle tidy linked looked through
  · obtain ⟨st1,n,idle,got,live⟩ := looked
    obtain ⟨tidy1,volume1⟩ := tidy.idle idle
    obtain ⟨tidy2,volume2⟩ := tidy1.got got (by rw [idle.sb]; exact FsState.Linked.place live)
    refine Carried.still linked ⟨tidy2,volume2.trans volume1⟩ (fun s used => ?_) through
    rcases eq_or_ne s ip with rfl | away
    · dsimp only
      rw [got.inum]
      exact live
    · dsimp only at used ⊢
      rw [got.other s away,idle.icache] at used ⊢
      exact linked.held s used

/-- An entry lies in one block, and is written at once. -/
theorem Carried.entered (tidy : Tidy tight st) (linked : st.Linked) (ready : Ready rootdev dp st)
    (type : (st.icache dp).type = tDir) {i : Nat} (place : 16 * i ≤ (st.icache dp).size.toNat) (name : Buffer)
    (live : (st.volume rootdev).Live n) (width : n < 65536)
    (enough : (writei st dp (direntBytes name n) (16 * i) direntSize).2.exhausted = false) :
    Carried tight st (writei st dp (direntBytes name n) (16 * i) direntSize).2 := by
  have regular : (st.icache dp).type ≠ tDev := by
    rw [type]
    decide
  have copy := ready.copy
  rcases Nat.lt_or_ge 71680 (16 * i + direntSize) with full | room
  · rw [writei_refused regular (by decide) (Or.inr full)]
    exact Carried.refl tidy linked
  have directory : ((st.volume rootdev).inode (st.icache dp).inum).type = tDir := by
    rw [copy]
    exact type
  refine Carried.wrote tidy linked ready regular place room enough (fun _ => ?_) fun _ t byte pause patched j title m low entry => ?_
  · have wrote := (writei_wrote ready regular (tidy.directory ready type) place room enough).2
    exact (tidy.volume.listing _ directory).put (by rw [copy]; exact place) (FsState.Linked.place live) wrote.frame.sb wrote.size
      wrote.byte
  · have size : direntSize = 16 := rfl
    obtain ⟨most,ends⟩ := pause
    have whole := Volume.table_patched width (by omega) patched entry
    split at whole
    · rw [whole]
      exact live
    · refine linked.volume.leads _ m ⟨directory,j,title,?_,whole⟩
      rw [copy]
      omega

theorem Carried.dirlink (tidy : Tidy tight st) (linked : st.Linked) (ready : Ready rootdev dp st)
    (type : (st.icache dp).type = tDir) {name : Buffer} {r : Int × FsState} (live : (st.volume rootdev).Live n)
    (width : n < 65536) (ok : dirlink st dp name n = .ok r) (enough : r.2.exhausted = false) : Carried tight st r.2 := by
  rcases tidy.dirlink_cases ready type ok with
    ⟨ip,off,st1,looking,here⟩ | ⟨st1,st2,i,⟨looking,idle1⟩,⟨looping,idle2⟩,place,here⟩
  · rw [here]
    have first := Carried.lookup tidy linked ready type looking
    obtain ⟨_,_,_,got,_⟩ := linked.looked tidy ready type looking
    exact first.trans (Carried.put first.tidy first.linked got.names.1)
  · rw [here] at enough ⊢
    have printed := kprint_quiet (writei st2 dp (direntBytes name n) (16 * i) direntSize).2
      ((writei st2 dp (direntBytes name n) (16 * i) direntSize).1 ≠ ((direntSize : Nat) : Int))
      (show Message.dirlinkWrite ≠ .ballocOut ∧ Message.dirlinkWrite ≠ .iallocOut by decide)
    have free : (writei st2 dp (direntBytes name n) (16 * i) direntSize).2.exhausted = false :=
      exhausted_of_suffix printed.trace enough
    have idle := idle1.trans idle2
    have same1 : st1.icache dp = st.icache dp := congrFun idle1.icache dp
    have same : st2.icache dp = st.icache dp := congrFun idle.icache dp
    have first := Carried.lookup tidy linked ready type looking
    have ready1 := ready.idle idle1
    have filled1 := first.tidy.directory ready1 (by rw [same1]; exact type)
    have second := Carried.idle first.tidy first.linked idle2 (dirlinkLoop_through _ ready1 filled1 Volume.Intact.allots
      (first.tidy.survives first.linked.volume) _ _ looping)
    have live2 : (st2.volume rootdev).Live n := by
      rw [idle.volume]
      exact live
    have third := Carried.entered second.tidy second.linked (ready.idle idle) (by rw [same]; exact type)
      (by rw [same]; exact place) name live2 width free
    exact ((first.trans second).trans third).trans (Carried.idle third.tidy third.linked printed
      (Through.printIf (third.tidy.survives third.linked.volume) _ _))

/-- The inode that `create` makes is on the disk with its type first, and with its link then. -/
theorem Carried.created (tidy : Tidy tight st) (linked : st.Linked) {type : BitVec 16} (some_type : type ≠ 0)
    (major minor : BitVec 16) (ok : ialloc st rootdev type = .ok (some ip,st1)) :
    Carried tight st (iupdate ((ilock st1 ip).setDinode ip
      { ((ilock st1 ip).icache ip).toDinode with major := major,minor := minor,nlink := 1 }) ip) ∧
    ((iupdate ((ilock st1 ip).setDinode ip
      { ((ilock st1 ip).icache ip).toDinode with major := major,minor := minor,nlink := 1 }) ip).icache ip).inum < st.sb.ninodes := by
  have layout : st.sb.Layout := tidy.volume.sound.layout
  obtain ⟨k,claimed⟩ := iallocLoop_claimed _ (le_refl 1) ok
  have place := Nat.lt_of_lt_of_le claimed.bound layout.count
  have unused := tidy.unused claimed.free place
  have low := (layout.iblock_range place).2
  have fresh (s : Slot) : ¬st.Names rootdev k s := by
    rintro ⟨used,_,rfl⟩
    exact (linked.held s used).1 unused
  have acquired1 := (claimed.acquired fresh place).1
  have tidy1 := (tidy.acquired acquired1 (Or.inl ⟨rfl,rfl,unused⟩)).1
  have linked1 : (st1.volume rootdev).Linked := by
    rw [acquired1.volume layout tidy.unique]
    exact linked.volume.store tidy.volume low (Or.inl ⟨rfl,rfl,unused⟩)
  have survives1 := tidy1.survives linked1
  rw [acquired1.recorded.sb] at survives1
  have first := iallocLoop_through _ _ (tidy.survives linked.volume) ok survives1
  obtain ⟨old,origin,acquired,self⟩ := claimed.created layout tidy.unique major minor
  have plain : old = { Dinode.zero with type := type } := by
    rcases origin with plain | ⟨locked,number,_⟩
    · exact plain
    · exact absurd ⟨locked.1,locked.2.1,number⟩ (fresh ip)
  subst plain
  have locking := first.trans (ilock_through first.finish ip)
  have setting : Through rootdev (Survives st.sb) st ((ilock st1 ip).setDinode ip
      { ((ilock st1 ip).icache ip).toDinode with major := major,minor := minor,nlink := 1 }) :=
    locking.trans (Through.quiet rfl rfl locking.finish)
  have storing := @iupdate_through rootdev (Survives st.sb) ((ilock st1 ip).setDinode ip
      { ((ilock st1 ip).icache ip).toDinode with major := major,minor := minor,nlink := 1 }) ip setting.finish
  generalize iupdate ((ilock st1 ip).setDinode ip
    { ((ilock st1 ip).icache ip).toDinode with major := major,minor := minor,nlink := 1 }) ip = st2 at acquired self storing ⊢
  have tidy2 := (tidy.acquired acquired (Or.inl ⟨rfl,rfl,unused⟩)).1
  have volume2 := acquired.volume layout tidy.unique
  have linked2 : (st2.volume rootdev).Linked := by
    rw [volume2]
    exact linked.volume.store tidy.volume low (Or.inl ⟨rfl,rfl,unused⟩)
  refine ⟨⟨tidy2,⟨linked2,fun s used => ?_⟩,acquired.recorded.sb,setting.trans (storing ?_)⟩,?_⟩
  · unfold Volume.Live
    rw [volume2]
    change (Function.update (st.volume rootdev).inode k _ (st2.icache s).inum).type ≠ 0 ∧
      (Function.update (st.volume rootdev).inode k _ (st2.icache s).inum).nlink ≠ 0
    rcases eq_or_ne s ip with rfl | away
    · rw [acquired.inum,Function.update_self]
      exact ⟨some_type,show (1 : BitVec 16) ≠ 0 by decide⟩
    · rw [acquired.other s away] at used ⊢
      rw [Function.update_of_ne fun same => fresh s ⟨used,(tidy.held s used).1,same⟩]
      exact linked.held s used
  · rw [← acquired.recorded.sb]
    exact tidy2.survives linked2
  · rw [acquired.inum]
    exact claimed.bound

end carried
end Lxos.Fs
