import Lxos.Fs.Lawful

/-! Lawful volumes under the operations that a path walk and `create` are made of:
references taken and given back, names looked up and entered, inodes made. -/
namespace Lxos.Fs
open Lxos.Bytes

/-- One step: the volume is lawful again, and slots in use stay with their inodes. -/
structure Upkept (strict : Prop) (loose : Nat → Prop) (st st' : FsState) : Prop where
  lawful : Lawful strict loose st'
  evolves : (st.volume rootdev).Evolves (st'.volume rootdev)
  uncut : Uncut st st'
  number : ∀ s, 0 < (st.icache s).ref → (st'.icache s).inum = (st.icache s).inum

/-- Inodes in `loose` are referenced. -/
def Rooted (loose : Nat → Prop) (st : FsState) : Prop := ∀ k, loose k → ∃ s, st.Names rootdev k s

theorem Upkept.refl {strict : Prop} {loose : Nat → Prop} {st : FsState} (lawful : Lawful strict loose st) :
    Upkept strict loose st st := ⟨lawful,Volume.Evolves.refl _,Uncut.refl st,fun _ _ => rfl⟩

section references
variable {strict : Prop} {loose : Nat → Prop} {st st' : FsState} {ip s : Slot} {r : Int} {k : Nat}

theorem recount_field (st : FsState) (ip : Slot) (r : Int) (s : Slot) :
    ((st.setInode ip { st.icache ip with ref := r }).icache s).dev = (st.icache s).dev ∧
    ((st.setInode ip { st.icache ip with ref := r }).icache s).inum = (st.icache s).inum ∧
    ((st.setInode ip { st.icache ip with ref := r }).icache s).valid = (st.icache s).valid ∧
    ((st.setInode ip { st.icache ip with ref := r }).icache s).toDinode = (st.icache s).toDinode := by
  rcases eq_or_ne s ip with rfl | away
  · rw [FsState.setInode_same]
    exact ⟨rfl,rfl,rfl,rfl⟩
  · rw [FsState.setInode_other _ _ _ _ away]
    exact ⟨rfl,rfl,rfl,rfl⟩

theorem recount_used (positive : 0 < r → 0 < (st.icache ip).ref)
    (used : 0 < ((st.setInode ip { st.icache ip with ref := r }).icache s).ref) : 0 < (st.icache s).ref := by
  rcases eq_or_ne s ip with rfl | away
  · rw [FsState.setInode_same] at used
    exact positive used
  · rw [FsState.setInode_other _ _ _ _ away] at used
    exact used

theorem recount_unique (unique : st.Unique) (positive : 0 < r → 0 < (st.icache ip).ref) :
    (st.setInode ip { st.icache ip with ref := r }).Unique := by
  intro s t left right device number
  rw [(recount_field st ip r s).1,(recount_field st ip r t).1] at device
  rw [(recount_field st ip r s).2.1,(recount_field st ip r t).2.1] at number
  exact unique s t (recount_used positive left) (recount_used positive right) device number

theorem recount_locked {dev : Nat} (positive : 0 < r → 0 < (st.icache ip).ref)
    (locked : (st.setInode ip { st.icache ip with ref := r }).Locked dev s) : st.Locked dev s := by
  obtain ⟨device,_,valid,_⟩ := recount_field st ip r s
  exact ⟨recount_used positive locked.1,device ▸ locked.2.1,valid ▸ locked.2.2⟩

/-- A slot in use is counted anew; one that is given up was as on the disk. -/
theorem Lawful.recount (lawful : Lawful strict loose st) (positive : 0 < r → 0 < (st.icache ip).ref)
    (stays : loose (st.icache ip).inum → 0 < (st.icache ip).ref → 0 < r) :
    (st.setInode ip { st.icache ip with ref := r }).volume rootdev = st.volume rootdev ∧
      Lawful strict loose (st.setInode ip { st.icache ip with ref := r }) := by
  have unique := recount_unique lawful.unique positive
  have volume : (st.setInode ip { st.icache ip with ref := r }).volume rootdev = st.volume rootdev := by
    refine FsState.volume_ext rfl rfl (fun k inside => ?_) fun k rest => FsState.volume_rest rest
    change k < st.sb.slots at inside
    rw [FsState.volume_inode inside]
    refine (FsState.dinode_congr lawful.unique unique rfl (fun s locked number => ?_) fun s locked number => ?_).symm
    · obtain ⟨device,inum,valid,copy⟩ := recount_field st ip r s
      by_cases used : 0 < ((st.setInode ip { st.icache ip with ref := r }).icache s).ref
      · exact Or.inl ⟨⟨used,device.trans locked.2.1,valid.trans locked.2.2⟩,inum.trans number,copy⟩
      · have here : s = ip := by
          by_contra away
          rw [FsState.setInode_other _ _ _ _ away] at used
          exact used locked.1
        subst here
        rw [FsState.setInode_same] at used
        refine Or.inr ⟨fun t there same => ?_,?_⟩
        · have before := recount_locked positive there
          rw [(recount_field st s r t).2.1] at same
          obtain rfl := lawful.unique t s before.1 locked.1 (before.2.1.trans locked.2.1.symm) (same.trans number.symm)
          have now := there.1
          rw [FsState.setInode_same] at now
          exact used now
        · rw [← number]
          exact lawful.saved s locked fun here => used (stays here locked.1)
    · rw [(recount_field st ip r s).2.1] at number
      exact Or.inl ⟨recount_locked positive locked,number⟩
  refine ⟨volume,by rw [volume]; exact lawful.volume,unique,fun s used => ?_,fun s locked tight => ?_,lawful.stored⟩
  · rw [volume,(recount_field st ip r s).1,(recount_field st ip r s).2.1]
    exact lawful.held s (recount_used positive used)
  · rw [(recount_field st ip r s).2.1] at tight ⊢
    rw [(recount_field st ip r s).2.2.2]
    exact lawful.saved s (recount_locked positive locked) tight

theorem Lawful.idup (lawful : Lawful strict loose st) (used : 0 < (st.icache ip).ref) :
    (idup st ip).volume rootdev = st.volume rootdev ∧ Lawful strict loose (idup st ip) :=
  lawful.recount (fun _ => used) fun _ _ => by omega

/-- An inode that is given back has a link, and nothing is truncated. -/
theorem Lawful.iput_eq (lawful : Lawful strict loose st) (used : 0 < (st.icache ip).ref) :
    iput st ip = st.setInode ip { st.icache ip with ref := (st.icache ip).ref - 1 } := by
  unfold iput
  dsimp only
  rw [if_neg]
  intro last
  have ready := lawful.ready used last.1
  refine lawful.volume.linked _ (lawful.held ip used).2 ?_
  rw [ready.copy]
  exact last.2.1

theorem Lawful.iput (lawful : Lawful strict loose st) (used : 0 < (st.icache ip).ref)
    (stays : loose (st.icache ip).inum → 1 < (st.icache ip).ref) :
    (iput st ip).volume rootdev = st.volume rootdev ∧ Lawful strict loose (iput st ip) := by
  rw [lawful.iput_eq used]
  exact lawful.recount (fun _ => used) fun here _ => by
    have := stays here
    omega

theorem Rooted.congr (rooted : Rooted loose st) (ref : ∀ s, (st'.icache s).ref = (st.icache s).ref)
    (device : ∀ s, (st'.icache s).dev = (st.icache s).dev) (inum : ∀ s, (st'.icache s).inum = (st.icache s).inum) :
    Rooted loose st' := by
  intro k here
  obtain ⟨s,names⟩ := rooted k here
  refine ⟨s,?_⟩
  unfold FsState.Names
  rw [ref,device,inum]
  exact names

theorem Got.number {dev : Nat} (got : Got dev k ip st st') (used : 0 < (st.icache s).ref) :
    (st'.icache s).inum = (st.icache s).inum := by
  rcases eq_or_ne s ip with rfl | away
  · rcases got.origin with ⟨names,_⟩ | ⟨_,zero,_⟩
    · exact got.inum.trans names.2.2.symm
    · rw [zero] at used
      exact absurd used (lt_irrefl 0)
  · rw [got.other s away]

/-- An inode that was referenced before has one reference more. -/
theorem Got.stays (got : Got rootdev k ip st st') (rooted : Rooted loose st) (here : loose (st'.icache ip).inum) :
    1 < (st'.icache ip).ref := by
  rw [got.inum] at here
  obtain ⟨s,names⟩ := rooted k here
  rw [got.ref]
  rcases got.origin with ⟨before,_⟩ | ⟨absent,_⟩
  · have := before.1
    omega
  · exact absurd names (absent s)

end references

section directories
variable {strict : Prop} {loose : Nat → Prop} {st st' : FsState} {dp : Slot} {name : Buffer} {i n : Nat}

/-- An inode found in a directory is in use. -/
theorem Lawful.found (lawful : Lawful strict loose st) (ready : Ready rootdev dp st) (type : (st.icache dp).type = tDir)
    {ip : Slot} {off : Nat} (ok : dirlookup st dp name = .ok (some (ip,off),st')) (enough : st'.exhausted = false) :
    Lawful strict loose st' ∧ (st.volume rootdev).Evolves (st'.volume rootdev) ∧
      ∃ st1 n, Seen rootdev dp st st1 ∧ Got rootdev n ip st1 st' := by
  obtain ⟨st1,i,seen,inside,_,same,_,found⟩ := dirlookup_looked (lawful.scan ready type) ok (Or.inr enough)
  obtain ⟨n,here⟩ := matches_iff.mp same
  obtain ⟨lawful1,evolves⟩ := seen.lawful lawful ready
  rw [← table_number here] at found
  rw [← ready.copy] at type inside
  have named := (lawful.volume.listing _ type).named i _ n inside here
  have got := iget_got found
  refine ⟨got.lawful lawful1 (by rw [evolves.type n named]; exact named),?_,st1,n,seen,got⟩
  rw [got.volume lawful1.unique rootdev]
  exact evolves

/-- The dinode on the disk after a write has the type that it had. -/
theorem writei_typed {src : Buffer} {off : Nat} (ready : Ready rootdev dp st) (regular : (st.icache dp).type ≠ tDev)
    (start : off ≤ (st.icache dp).size.toNat) (room : off + n ≤ 71680) (free : (writei st dp src off n).2.exhausted = false) :
    ((writei st dp src off n).2.table rootdev (st.icache dp).inum).type = (st.table rootdev (st.icache dp).inum).type ∨
      ((writei st dp src off n).2.table rootdev (st.icache dp).inum).type = (st.icache dp).type := by
  obtain ⟨_,st1,written,⟨_,middle⟩ | ⟨_,middle⟩⟩ := writei_written ready regular start room free
  · have sb : st1.sb = st.sb := written.frame.sb
    have block := written.table (st.sb.iblock (st.icache dp).inum) (ready.sound.layout.iblock_range ready.place).2
    refine Or.inl ?_
    rw [middle]
    unfold FsState.table
    rw [sb,block]
  · have ready1 := written.ready ready
    have kind := (written.frame.kind (st.icache dp).inum).1
    have stored := iupdate_table (resize_ready ready1 (BitVec.ofNat 32 (off + n)))
    rw [← written.change.inum,ready1.copy,written.change.inum,ready.copy] at kind
    rw [FsState.setDinode_same,written.change.inum] at stored
    refine Or.inr ?_
    rw [middle,stored]
    exact kind

/-- A new entry is written into a directory. -/
theorem Lawful.entered (lawful : Lawful strict loose st) (ready : Ready rootdev dp st) (type : (st.icache dp).type = tDir)
    (place : Place rootdev dp i st) (absent : ∀ l, 16 * l < (st.icache dp).size.toNat →
      ¬Matches ((st.volume rootdev).byte (st.icache dp).inum) name l)
    (some_number : 1 ≤ n) (in_use : ((st.volume rootdev).inode n).type ≠ 0) (room : 16 * i + direntSize ≤ 71680)
    (free : (writei st dp (direntBytes name n) (16 * i) direntSize).2.exhausted = false) :
    Lawful strict loose (writei st dp (direntBytes name n) (16 * i) direntSize).2 ∧
      (st.volume rootdev).Evolves ((writei st dp (direntBytes name n) (16 * i) direntSize).2.volume rootdev) := by
  have regular : (st.icache dp).type ≠ tDev := by
    rw [type]
    decide
  have directory : ((st.volume rootdev).inode (st.icache dp).inum).type = tDir := by
    rw [ready.copy]
    exact type
  have width : n < 65536 := Nat.lt_of_lt_of_le (lawful.volume.within n in_use) lawful.volume.narrow
  have small := lawful.volume.small (st.icache dp).inum
  have patched := (writei_patched ready regular place.within room free).2
  have typed := writei_typed ready regular place.within room free
  have wrote := fun filled => (writei_wrote ready regular filled place.within room free).2
  generalize (writei st dp (direntBytes name n) (16 * i) direntSize).2 = st1 at patched typed wrote ⊢
  have volume : (st1.volume rootdev).Lawful strict loose := by
    refine lawful.volume.frame patched.frame patched.sound (lawful.held dp ready.locked.1).2 ?_
      (fun tight => (wrote (lawful.volume.filled _ tight)).filled) fun _ => ?_
    · rw [patched.size]
      exact max_le small room
    · refine (lawful.volume.listing _ directory).put (by rw [ready.copy]; exact place.within) ?_ ?_ some_number width
        patched.size patched.byte ?_ fun m => ?_
      · rw [ready.copy]
        exact place.free
      · rw [ready.copy]
        exact absent
      · rw [(patched.frame.kind n).1]
        exact in_use
      · rw [(patched.frame.kind m).1]
        exact id
  refine ⟨lawful.framed ready patched.change patched.frame volume (fun tight => ?_) fun here => ?_,patched.frame.evolves ?_⟩
  · exact ((wrote (lawful.volume.filled _ tight)).saved (lawful.saved dp ready.locked tight).symm).symm
  · rcases typed with same | same
    · rw [same]
      exact lawful.stored _ here
    · rw [same,type]
      decide
  · rw [patched.size]
    exact le_max_left _ _

theorem kprint_quiet {m : Message} (st : FsState) (p : Prop) [Decidable p] (h : m ≠ .ballocOut ∧ m ≠ .iallocOut) :
    Idle st (if p then kprint st m else st) := by
  split
  · exact kprint_idle st h
  · exact Idle.refl st

theorem iput_trace (st : FsState) (ip : Slot) : st.trace <:+ (iput st ip).trace := by
  rw [Fs.iput_eq]
  simp only [FsState.setInode_trace]
  split
  · exact (iputFree_calm st ip).trace
  · exact List.suffix_refl _

/-- A directory that was only read has the entries that it had. -/
theorem Seen.entries (seen : Seen rootdev dp st st') (ready : Ready rootdev dp st) :
    (st'.volume rootdev).byte (st'.icache dp).inum = (st.volume rootdev).byte (st.icache dp).inum ∧
      (st'.icache dp).size = (st.icache dp).size ∧ (st'.icache dp).type = (st.icache dp).type := by
  obtain ⟨addrs,copy⟩ := seen.grown.copy ready
  rw [seen.grown.byte,seen.grown.change.inum,copy]
  exact ⟨rfl,rfl,rfl⟩

/-- The write of `dirlink`, which is not made where the directory has its largest size. -/
theorem Lawful.put (lawful : Lawful strict loose st) (ready : Ready rootdev dp st) (type : (st.icache dp).type = tDir)
    (place : Place rootdev dp i st) (absent : ∀ l, 16 * l < (st.icache dp).size.toNat →
      ¬Matches ((st.volume rootdev).byte (st.icache dp).inum) name l)
    (some_number : 1 ≤ n) (in_use : ((st.volume rootdev).inode n).type ≠ 0)
    (free : (writei st dp (direntBytes name n) (16 * i) direntSize).2.exhausted = false) :
    Lawful strict loose (writei st dp (direntBytes name n) (16 * i) direntSize).2 ∧
      (st.volume rootdev).Evolves ((writei st dp (direntBytes name n) (16 * i) direntSize).2.volume rootdev) := by
  rcases Nat.lt_or_ge 71680 (16 * i + direntSize) with full | room
  · have regular : (st.icache dp).type ≠ tDev := by
      rw [type]
      decide
    rw [writei_refused regular (by decide) (Or.inr full)]
    exact ⟨lawful,Volume.Evolves.refl _⟩
  · exact lawful.entered ready type place absent some_number in_use room free

/-- `dirlink` of an inode in use. -/
theorem Lawful.dirlink (lawful : Lawful strict loose st) (rooted : Rooted loose st) (ready : Ready rootdev dp st)
    (type : (st.icache dp).type = tDir) (some_number : 1 ≤ n) (in_use : ((st.volume rootdev).inode n).type ≠ 0)
    {r : Int × FsState} (ok : Fs.dirlink st dp name n = .ok r) (enough : r.2.exhausted = false) : Upkept strict loose st r.2 := by
  unfold Fs.dirlink at ok
  cases looking : dirlookup st dp name with
  | error e =>
    rw [looking] at ok
    cases ok
  | ok answer =>
    have uncut := (dirlookup_uncut st dp name).elim looking
    obtain ⟨_ | ⟨ip,off⟩,st1⟩ := answer
    · rw [looking] at ok
      dsimp only at ok uncut
      cases looping : dirlinkLoop dp (entries + 1) st1 st1.stack 0 with
      | error e =>
        rw [looping] at ok
        cases ok
      | ok place =>
        obtain ⟨off,st2⟩ := place
        have onward := uncut.trans ((dirlinkLoop_uncut (entries + 1) st1 dp st1.stack 0).elim looping)
        rw [looping] at ok
        dsimp only at ok onward
        obtain rfl := Except.ok.inj ok
        have idle := kprint_quiet (writei st2 dp (direntBytes name n) off direntSize).2
          ((writei st2 dp (direntBytes name n) off direntSize).1 ≠ ((direntSize : Nat) : Int))
          (show Message.dirlinkWrite ≠ .ballocOut ∧ Message.dirlinkWrite ≠ .iallocOut by decide)
        have free3 : (writei st2 dp (direntBytes name n) off direntSize).2.exhausted = false :=
          exhausted_of_suffix idle.trace enough
        have free2 : st2.exhausted = false := exhausted_of_suffix (writei_local st2 dp _ off direntSize).trace free3
        have free1 : st1.exhausted = false := exhausted_of_suffix (dirlinkLoop_trace _ st1 st1.stack 0 looping) free2
        obtain ⟨seen1,absent⟩ := dirlookup_looked (lawful.scan ready type) looking (Or.inr free1)
        obtain ⟨lawful1,evolves1⟩ := seen1.lawful lawful ready
        obtain ⟨bytes1,size1,type1⟩ := seen1.entries ready
        have ready1 := seen1.grown.ready ready
        obtain ⟨seen2,i,here,place⟩ := dirlinkLoop_place (j := 0) _ (lawful1.scan ready1 (type1.trans type)) st1.stack
          (Nat.zero_le _) (fun l low => absurd low (Nat.not_lt_zero l)) looping (Or.inr free2)
        obtain ⟨lawful2,evolves2⟩ := seen2.lawful lawful1 ready1
        obtain ⟨bytes2,size2,type2⟩ := seen2.entries ready1
        have here : off = 16 * i := here
        subst here
        have evolves := evolves1.trans evolves2
        obtain ⟨lawful3,evolves3⟩ := lawful2.put (seen2.grown.ready ready1)
          (type2.trans (type1.trans type)) ⟨by rw [size2]; exact place.within,by rw [size2,bytes2]; exact place.free,
            by rw [bytes2]; exact place.first⟩ (by
              rw [bytes2,bytes1,size2,size1]
              exact fun l => absent l (Nat.zero_le l)) some_number (by rw [evolves.type n in_use]; exact in_use) free3
        refine ⟨lawful3.idle idle,?_,(onward.trans (writei_uncut st2 dp _ _ _)).trans (print_uncut _ _ _),fun s _ => ?_⟩
        · dsimp only at idle ⊢
          rw [idle.volume]
          exact evolves.trans evolves3
        · dsimp only at idle ⊢
          rw [idle.icache,(writei_local st2 dp _ _ _).inum,seen2.grown.change.inum,seen1.grown.change.inum]
    · rw [looking] at ok
      obtain rfl := Except.ok.inj ok
      have free : st1.exhausted = false := exhausted_of_suffix (iput_trace st1 ip) enough
      obtain ⟨lawful1,evolves,st0,k,seen,got⟩ := lawful.found ready type looking free
      have anchored0 := rooted.congr seen.grown.change.ref seen.grown.change.dev seen.grown.change.inum
      have used := got.names.1
      obtain ⟨volume,lawful2⟩ := lawful1.iput used (got.stays anchored0)
      refine ⟨lawful2,?_,uncut.trans (.quiet ?_),fun s before => ?_⟩
      · rw [volume]
        exact evolves
      · rw [lawful1.iput_eq used]
        rfl
      · dsimp only
        rw [lawful1.iput_eq used,(recount_field st1 ip _ s).2.1]
        exact (got.number (by rw [seen.grown.change.ref]; exact before)).trans (seen.grown.change.inum s)

end directories

end Lxos.Fs
