import Lxos.Fs.Upkeep

/-! A new inode. `ialloc` takes the first dinode without a type, clears it and stores the
type; `create` gives it a link. In between it is in use but has none. -/
namespace Lxos.Fs
open Lxos.Bytes

section claim
variable {dev k : Nat} {type : BitVec 16} {ip : Slot} {st st' : FsState}

theorem decode_claim (b : Block) (o : Nat) (type : BitVec 16) :
    Dinode.decode (put16 (blit b o 64 zeros) o type) o = { Dinode.zero with type := type } := by
  have cleared : Dinode.decode (blit b o 64 zeros) o = Dinode.zero :=
    (@Dinode.decode_congr _ zeros o o fun i h => blit_inside h).trans (Dinode.decode_zeros o)
  have half {p : Nat} (away : o + 2 ≤ p) : le16 (put16 (blit b o 64 zeros) o type) p = le16 (blit b o 64 zeros) p :=
    le16_blit_outside (Or.inr away)
  have word {p : Nat} (away : o + 2 ≤ p) : le32 (put16 (blit b o 64 zeros) o type) p = le32 (blit b o 64 zeros) p :=
    le32_blit_outside (Or.inr away)
  ext1
  · exact le16_put16 _ _ _
  · exact (half (by omega)).trans (congrArg Dinode.major cleared)
  · exact (half (by omega)).trans (congrArg Dinode.minor cleared)
  · exact (half (by omega)).trans (congrArg Dinode.nlink cleared)
  · exact (word (by omega)).trans (congrArg Dinode.size cleared)
  · funext i
    exact (word (by omega)).trans (congrFun (congrArg Dinode.addrs cleared) i)

theorem claimDinode_disk (st : FsState) (dev k : Nat) (type : BitVec 16) : (claimDinode st dev k type).disk dev =
    Function.update (st.disk dev) (st.sb.iblock k)
      (put16 (blit (st.disk dev (st.sb.iblock k)) (inodeOffset k) 64 zeros) (inodeOffset k) type) := bwrite_disk _ _ _ _

theorem claimDinode_recorded (st : FsState) (dev k : Nat) (type : BitVec 16) : Recorded dev k st (claimDinode st dev k type) := by
  refine ⟨rfl,fun c away => ?_,fun o away => ?_⟩
  · rw [claimDinode_disk,Function.update_of_ne away]
  · rw [claimDinode_disk,Function.update_self,put16,blit_outside (by omega),blit_outside (by omega)]

theorem claimDinode_table (st : FsState) (dev k : Nat) (type : BitVec 16) :
    (claimDinode st dev k type).table dev k = { Dinode.zero with type := type } := by
  have sb : (claimDinode st dev k type).sb = st.sb := rfl
  unfold FsState.table
  rw [sb,claimDinode_disk,Function.update_self]
  exact decode_claim _ _ type

/-- `ialloc` took inode `k`, which had no type, and references it in slot `ip`. -/
structure Claimed (dev : Nat) (type : BitVec 16) (k : Nat) (ip : Slot) (st st' : FsState) : Prop where
  positive : 1 ≤ k
  bound : k < st.sb.ninodes
  free : (st.table dev k).type = 0
  claim : ∃ st1, Recorded dev k st st1 ∧ st1.icache = st.icache ∧ st1.table dev k = { Dinode.zero with type := type } ∧
    Got dev k ip st1 st'

theorem iallocLoop_claimed (fuel : Nat) {inum : Nat} (positive : 1 ≤ inum)
    (ok : iallocLoop dev type fuel st inum = .ok (some ip,st')) : ∃ k, Claimed dev type k ip st st' := by
  induction fuel generalizing st inum with
  | zero => cases ok
  | succ fuel ih =>
    unfold iallocLoop at ok
    split at ok
    · rename_i bound
      dsimp only at ok
      split at ok
      · rename_i free
        split at ok
        · cases ok
        · rename_i got
          cases ok
          have read : Recorded dev inum st (bread st dev (st.sb.iblock inum)) := Recorded.same rfl rfl
          exact ⟨inum,positive,bound,free,_,read.trans (claimDinode_recorded _ dev inum type),rfl,
            claimDinode_table _ dev inum type,iget_got got⟩
      · obtain ⟨k,later⟩ := ih (Nat.le_succ_of_le positive) ok
        obtain ⟨st1,recorded,icache,table,got⟩ := later.claim
        have passed : Recorded dev k st (brelse (bread st dev (st.sb.iblock inum)) dev (st.sb.iblock inum)) :=
          Recorded.same rfl rfl
        exact ⟨k,later.positive,later.bound,later.free,st1,passed.trans recorded,icache,table,got⟩
    · cases ok

end claim

namespace Volume

theorem Lawful.make {strict : Prop} {loose : Nat → Prop} {v : Volume} {k c : Nat} {d : Dinode} {data : Block}
    (lawful : Lawful strict loose v) (place : k < v.sb.slots) (low : c < v.sb.bmapstart) (unused : (v.inode k).type = 0)
    (some_type : d.type ≠ 0) (regular : d.type ≠ tDir) (linked : d.nlink ≠ 0) (size : d.size = 0) (addrs : ∀ i, d.addrs i = 0) :
    Lawful strict loose ((v.setInode k d).setBlock c data) := by
  have empty : d.addrs = (v.inode k).addrs := by
    rw [lawful.unused k unused]
    exact funext addrs
  have owned := setInode_owned lawful.sound empty
  have sound : ((v.setInode k d).setBlock c data).Sound := (table_owned owned low).congr fun b bound =>
    (table_marked lawful.sound.layout low bound).symm
  have ref : ((v.setInode k d).setBlock c data).ref = v.ref := (table_ref owned low).trans (setInode_ref empty)
  have byte : ((v.setInode k d).setBlock c data).byte = v.byte := (table_byte owned low).trans (setInode_byte empty)
  have self : ((v.setInode k d).setBlock c data).inode k = d := Function.update_self _ _ _
  have other {j : Nat} (away : j ≠ k) : ((v.setInode k d).setBlock c data).inode j = v.inode j :=
    Function.update_of_ne away _ _
  have kept {j : Nat} (used : (v.inode j).type ≠ 0) : ((v.setInode k d).setBlock c data).inode j = v.inode j :=
    other fun same => used (same ▸ unused)
  refine ⟨sound,lawful.narrow,fun j => ?_,fun j => ?_,fun j tight bn => ?_,fun j here => ?_,fun j => ?_,fun j => ?_,fun j => ?_,?_⟩
  · rcases eq_or_ne j k with rfl | away
    · exact fun _ => place
    · rw [other away]
      exact lawful.within j
  · rcases eq_or_ne j k with rfl | away
    · rw [self,size]
      exact Nat.zero_le _
    · rw [other away]
      exact lawful.small j
  · rw [ref]
    rcases eq_or_ne j k with rfl | away
    · rw [self,size]
      exact fun below => absurd below (Nat.not_lt_zero _)
    · rw [other away]
      exact lawful.filled j tight bn
  · have directory := lawful.directory j here
    rw [kept (by rw [directory]; decide)]
    exact directory
  · rcases eq_or_ne j k with rfl | away
    · rw [self]
      exact fun _ => linked
    · rw [other away]
      exact lawful.linked j
  · rcases eq_or_ne j k with rfl | away
    · rw [self]
      exact fun zero => absurd zero some_type
    · rw [other away]
      exact lawful.unused j
  · rcases eq_or_ne j k with rfl | away
    · rw [self]
      exact fun directory => absurd directory regular
    · rw [other away]
      refine fun directory => (lawful.listing j directory).kept (by rw [other away]) (congrFun byte j) fun n used => ?_
      rw [kept used]
      exact used
  · rw [kept lawful.root]
    exact lawful.root

end Volume

/-- Slot `ip` has inode `k`, as before or because no slot had it, and the inode is `d` now. -/
structure Acquired (k : Nat) (d : Dinode) (ip : Slot) (st st' : FsState) : Prop where
  place : k < st.sb.slots
  recorded : Recorded rootdev k st st'
  other : ∀ s, s ≠ ip → st'.icache s = st.icache s
  alone : ∀ s, st.Names rootdev k s → s = ip
  before : st.Names rootdev k ip ∨ (st.icache ip).ref = 0
  device : (st'.icache ip).dev = rootdev
  inum : (st'.icache ip).inum = k
  copy : (st'.icache ip).valid = true → (st'.icache ip).toDinode = d
  stored : st'.table rootdev k = d

/-- Inode `k` was made: it is `d` on the disk, and in slot `ip`, which was free. -/
structure Made (k : Nat) (d : Dinode) (ip : Slot) (st st' : FsState) : Prop where
  positive : 1 ≤ k
  place : k < st.sb.slots
  unused : ((st.volume rootdev).inode k).type = 0
  recorded : Recorded rootdev k st st'
  other : ∀ s, s ≠ ip → st'.icache s = st.icache s
  vacant : (st.icache ip).ref = 0
  fresh : ∀ s, ¬st.Names rootdev k s
  self : st'.icache ip = ⟨d,rootdev,k,1,true⟩
  stored : st'.table rootdev k = d

section made
variable {strict : Prop} {loose : Nat → Prop} {k : Nat} {type major minor : BitVec 16} {d : Dinode} {ip : Slot} {st st' : FsState}

/-- Inodes that are not loose are on the disk as they are. -/
theorem Lawful.dinode (lawful : Lawful strict loose st) (inside : k < st.sb.slots) (tight : ¬loose k) :
    (st.volume rootdev).inode k = st.table rootdev k := by
  rw [FsState.volume_inode inside]
  unfold FsState.dinode
  split
  · rename_i s found
    obtain ⟨locked,rfl⟩ := FsState.cached_some found
    exact lawful.saved s locked tight
  · rfl

theorem Acquired.unique (acquired : Acquired k d ip st st') (unique : st.Unique) : st'.Unique := by
  have alone (s : Slot) (away : s ≠ ip) (used : 0 < (st'.icache s).ref) (device : (st'.icache s).dev = (st'.icache ip).dev)
      (number : (st'.icache s).inum = (st'.icache ip).inum) : False := by
    rw [acquired.other s away] at used device number
    rw [acquired.device] at device
    rw [acquired.inum] at number
    exact away (acquired.alone s ⟨used,device,number⟩)
  intro s t left right device number
  rcases eq_or_ne s ip with rfl | away
  · rcases eq_or_ne t s with rfl | away
    · rfl
    · exact (alone t away right device.symm number.symm).elim
  · rcases eq_or_ne t ip with rfl | away'
    · exact (alone s away left device number).elim
    · rw [acquired.other s away] at left device number
      rw [acquired.other t away'] at right device number
      exact unique s t left right device number

theorem Acquired.locked (acquired : Acquired k d ip st st') {s : Slot} (away : s ≠ ip) :
    st'.Locked rootdev s ↔ st.Locked rootdev s := by
  unfold FsState.Locked
  rw [acquired.other s away]

theorem Acquired.apart (acquired : Acquired k d ip st st') {s : Slot} (used : 0 < (st.icache s).ref)
    (away : (st.icache s).inum ≠ k) : s ≠ ip := by
  rintro rfl
  rcases acquired.before with names | zero
  · exact away names.2.2
  · rw [zero] at used
    exact lt_irrefl 0 used

theorem Acquired.dinode (acquired : Acquired k d ip st st') : st'.dinode rootdev k = d := by
  unfold FsState.dinode
  split
  · rename_i s found
    obtain ⟨locked,number⟩ := FsState.cached_some found
    rcases eq_or_ne s ip with rfl | away
    · exact acquired.copy locked.2.2
    · rw [acquired.other s away] at number
      obtain ⟨used,device,_⟩ := (acquired.locked away).mp locked
      exact absurd (acquired.alone s ⟨used,device,number⟩) away
  · exact acquired.stored

theorem Acquired.volume (acquired : Acquired k d ip st st') (layout : st.sb.Layout) (before : st.Unique) : st'.volume rootdev =
    ((st.volume rootdev).setInode k d).setBlock (st.sb.iblock k) (st'.disk rootdev (st.sb.iblock k)) := by
  have unique := acquired.unique before
  have sb := acquired.recorded.sb
  refine FsState.volume_ext sb.symm ?_ (fun j inside => ?_) fun j rest => ?_
  · funext c
    rcases eq_or_ne c (st.sb.iblock k) with rfl | away
    · exact Function.update_self _ _ _
    · rw [acquired.recorded.block c away]
      exact Function.update_of_ne away _ _
  · rw [sb] at inside
    change Function.update (st.volume rootdev).inode k d j = _
    rcases eq_or_ne j k with rfl | away
    · rw [Function.update_self]
      exact acquired.dinode.symm
    · rw [Function.update_of_ne away,FsState.volume_inode inside]
      refine (FsState.dinode_congr before unique (acquired.recorded.table layout acquired.place inside away)
        (fun s locked number => ?_) fun s locked number => ?_).symm
      · have apart := acquired.apart locked.1 (by rw [number]; exact away)
        refine Or.inl ⟨(acquired.locked apart).mpr locked,?_⟩
        rw [acquired.other s apart]
        exact ⟨number,rfl⟩
      · have apart : s ≠ ip := by
          rintro rfl
          rw [acquired.inum] at number
          exact away number.symm
        rw [acquired.other s apart] at number
        exact Or.inl ⟨(acquired.locked apart).mp locked,number⟩
  · have away : j ≠ k := by
      rintro rfl
      rw [sb] at rest
      exact absurd acquired.place (Nat.not_lt.mpr rest)
    rw [sb] at rest
    exact (Function.update_of_ne away _ _).trans (FsState.volume_rest rest)

/-- The slot is not loaded yet. -/
theorem Claimed.acquired (fresh : ∀ s, ¬st.Names rootdev k s) (place : k < st.sb.slots) (claimed : Claimed rootdev type k ip st st') :
    Acquired k { Dinode.zero with type := type } ip st st' ∧ (st'.icache ip).ref = 1 ∧ (st'.icache ip).valid = false := by
  obtain ⟨st1,recorded,icache,table,got⟩ := claimed.claim
  obtain ⟨vacant,ref,invalid⟩ : (st.icache ip).ref = 0 ∧ (st'.icache ip).ref = 1 ∧ (st'.icache ip).valid = false := by
    have ref := got.ref
    unfold FsState.Names at fresh
    rw [icache] at ref
    rcases got.origin with ⟨before,_⟩ | ⟨_,zero,invalid⟩
    · unfold FsState.Names at before
      rw [icache] at before
      exact absurd before (fresh ip)
    · rw [icache] at zero
      exact ⟨zero,by rw [ref,zero]; rfl,invalid⟩
  refine ⟨⟨place,recorded.trans (Recorded.same got.sb (congrFun got.disk rootdev)),fun s away => ?_,
    fun s names => absurd names (fresh s),Or.inr vacant,got.device,got.inum,fun valid => ?_,?_⟩,ref,invalid⟩
  · rw [got.other s away,icache]
  · rw [invalid] at valid
    cases valid
  · rw [← table]
    unfold FsState.table
    rw [got.sb,got.disk]

/-- `create` fills in the dinode, which is the old one where a slot had it loaded. -/
theorem Claimed.created (layout : st.sb.Layout) (unique : st.Unique) (claimed : Claimed rootdev type k ip st st')
    (major minor : BitVec 16) : ∃ old : Dinode,
    (old = { Dinode.zero with type := type } ∨ st.Locked rootdev ip ∧ (st.icache ip).inum = k ∧ old = (st.icache ip).toDinode) ∧
    Acquired k { old with major := major,minor := minor,nlink := 1 } ip st
      (iupdate ((ilock st' ip).setDinode ip
        { ((ilock st' ip).icache ip).toDinode with major := major,minor := minor,nlink := 1 }) ip) ∧
    (iupdate ((ilock st' ip).setDinode ip
        { ((ilock st' ip).icache ip).toDinode with major := major,minor := minor,nlink := 1 }) ip).icache ip =
      ⟨{ old with major := major,minor := minor,nlink := 1 },rootdev,k,(st.icache ip).ref + 1,true⟩ := by
  have place : k < st.sb.slots := Nat.lt_of_lt_of_le claimed.bound layout.count
  obtain ⟨st1,recorded,icache,table,got⟩ := claimed.claim
  have unique1 : st1.Unique := by
    unfold FsState.Unique
    rw [icache]
    exact unique
  have names (s : Slot) : st1.Names rootdev k s ↔ st.Names rootdev k s := by
    unfold FsState.Names
    rw [icache]
  have named : Named rootdev ip st' := by
    refine ⟨got.unique unique1,got.names.1,got.device,?_⟩
    rw [got.inum,got.sb,recorded.sb]
    exact place
  have loaded := ilock_loaded named
  have stored : st'.table rootdev k = { Dinode.zero with type := type } := by
    rw [← table]
    unfold FsState.table
    rw [got.sb,got.disk]
  have all : Recorded rootdev k st (ilock st' ip) :=
    (recorded.trans (Recorded.same got.sb (congrFun got.disk rootdev))).trans
      (Recorded.same loaded.sb (congrFun loaded.disk rootdev))
  have others (s : Slot) (away : s ≠ ip) : (ilock st' ip).icache s = st.icache s := by
    rw [loaded.other s away,got.other s away,icache]
  obtain ⟨alone,before,kept⟩ : (∀ s, st.Names rootdev k s → s = ip) ∧ (st.Names rootdev k ip ∨ (st.icache ip).ref = 0) ∧
      ((st'.icache ip).valid = false ∨ st.Locked rootdev ip ∧ (st.icache ip).inum = k ∧
        (st'.icache ip).toDinode = (st.icache ip).toDinode) := by
    rcases got.origin with ⟨mine,copy,valid⟩ | ⟨none,zero,invalid⟩
    · have mine := (names ip).mp mine
      refine ⟨fun s names => unique s ip names.1 mine.1 (names.2.1.trans mine.2.1.symm) (names.2.2.trans mine.2.2.symm),
        Or.inl mine,?_⟩
      rw [icache] at copy valid
      rw [valid]
      cases loaded : (st.icache ip).valid with
      | true => exact Or.inr ⟨⟨mine.1,mine.2.1,loaded⟩,mine.2.2,copy⟩
      | false => exact Or.inl rfl
    · refine ⟨fun s here => absurd ((names s).mpr here) (none s),Or.inr ?_,Or.inl invalid⟩
      rw [← icache]
      exact zero
  have slot : (ilock st' ip).icache ip = ⟨((ilock st' ip).icache ip).toDinode,rootdev,k,(st.icache ip).ref + 1,true⟩ := by
    have ref := got.ref
    rw [icache] at ref
    rw [loaded.self,← got.device,← ref,← got.inum]
  have copy : ((ilock st' ip).icache ip).toDinode = { Dinode.zero with type := type } ∨
      st.Locked rootdev ip ∧ (st.icache ip).inum = k ∧ ((ilock st' ip).icache ip).toDinode = (st.icache ip).toDinode := by
    rw [loaded.self,got.inum,stored]
    dsimp only
    cases valid : (st'.icache ip).valid with
    | true =>
      rw [valid] at kept
      exact Or.inr (kept.resolve_left (by decide))
    | false => exact Or.inl rfl
  generalize ilock st' ip = st2 at slot copy all others ⊢
  generalize (st2.icache ip).toDinode = old at slot copy ⊢
  refine ⟨old,copy,?_⟩
  generalize ({ old with major := major,minor := minor,nlink := 1 } : Dinode) = d
  have here : (st2.setDinode ip d).icache ip = ⟨d,rootdev,k,(st.icache ip).ref + 1,true⟩ := by
    rw [FsState.setDinode_same,slot]
  have after : (iupdate (st2.setDinode ip d) ip).icache = (st2.setDinode ip d).icache := (iupdate_io _ _).icache
  have self : (iupdate (st2.setDinode ip d) ip).icache ip = ⟨d,rootdev,k,(st.icache ip).ref + 1,true⟩ := by
    rw [after,here]
  have saved := @iupdate_stored rootdev ip (st2.setDinode ip d) (by rw [here])
  rw [here] at saved
  refine ⟨⟨place,all.trans (store_recorded (by rw [slot]) (by rw [slot]) d),fun s away => ?_,alone,before,?_,?_,fun _ => ?_,
    saved⟩,self⟩
  · rw [after,FsState.setDinode_other _ _ _ _ away,others s away]
  all_goals rw [self]

theorem Claimed.made (layout : st.sb.Layout) (unique : st.Unique) (unused : ((st.volume rootdev).inode k).type = 0)
    (fresh : ∀ s, ¬st.Names rootdev k s) (claimed : Claimed rootdev type k ip st st') :
    Made k { Dinode.zero with type := type,major := major,minor := minor,nlink := 1 } ip st
      (iupdate ((ilock st' ip).setDinode ip
        { ((ilock st' ip).icache ip).toDinode with major := major,minor := minor,nlink := 1 }) ip) := by
  obtain ⟨old,origin,acquired,self⟩ := claimed.created layout unique major minor
  have vacant := acquired.before.resolve_left (fresh ip)
  have old_eq : old = { Dinode.zero with type := type } := by
    refine origin.resolve_right fun ⟨locked,number,_⟩ => ?_
    exact fresh ip ⟨locked.1,locked.2.1,number⟩
  subst old_eq
  rw [vacant] at self
  exact ⟨claimed.positive,acquired.place,unused,acquired.recorded,acquired.other,vacant,fresh,self,acquired.stored⟩

theorem Lawful.made (lawful : Lawful strict loose st) (claimed : Claimed rootdev type k ip st st') :
    Made k { Dinode.zero with type := type,major := major,minor := minor,nlink := 1 } ip st
      (iupdate ((ilock st' ip).setDinode ip
        { ((ilock st' ip).icache ip).toDinode with major := major,minor := minor,nlink := 1 }) ip) := by
  have layout := lawful.volume.sound.layout
  have tight : ¬loose k := fun here => lawful.stored k here claimed.free
  have unused : ((st.volume rootdev).inode k).type = 0 := by
    rw [lawful.dinode (Nat.lt_of_lt_of_le claimed.bound layout.count) tight]
    exact claimed.free
  refine claimed.made layout lawful.unique unused fun s names => ?_
  obtain ⟨used,_,rfl⟩ := names
  exact (lawful.held s used).2 unused

theorem Made.acquired (made : Made k d ip st st') : Acquired k d ip st st' := by
  refine ⟨made.place,made.recorded,made.other,fun s names => absurd names (made.fresh s),Or.inr made.vacant,?_,?_,
    fun _ => ?_,made.stored⟩
  all_goals rw [made.self]

theorem Made.lawful (made : Made k d ip st st') (lawful : Lawful strict loose st) (some_type : d.type ≠ 0)
    (regular : d.type ≠ tDir) (linked : d.nlink ≠ 0) (size : d.size = 0) (addrs : ∀ i, d.addrs i = 0) :
    Lawful strict loose st' ∧ (st.volume rootdev).Evolves (st'.volume rootdev) ∧ (st'.volume rootdev).inode k = d := by
  have layout : st.sb.Layout := lawful.volume.sound.layout
  have acquired := made.acquired
  have volume := acquired.volume layout lawful.unique
  have self : (st'.volume rootdev).inode k = d := by
    rw [volume]
    exact Function.update_self _ _ _
  have other {j : Nat} (away : j ≠ k) : (st'.volume rootdev).inode j = (st.volume rootdev).inode j := by
    rw [volume]
    exact Function.update_of_ne away _ _
  have evolves : (st.volume rootdev).Evolves (st'.volume rootdev) := by
    refine ⟨made.recorded.sb,fun j used => ?_,fun j used => ?_⟩
    all_goals
      have away : j ≠ k := fun same => used (same ▸ made.unused)
      rw [other away]
  refine ⟨⟨?_,acquired.unique lawful.unique,fun s used => ?_,fun s locked tight => ?_,fun j here => ?_⟩,evolves,self⟩
  · rw [volume]
    exact lawful.volume.make made.place (layout.iblock_range made.place).2 made.unused some_type regular linked size addrs
  · rcases eq_or_ne s ip with rfl | away
    · rw [made.self]
      refine ⟨rfl,?_⟩
      rw [self]
      exact some_type
    · rw [made.other s away] at used ⊢
      obtain ⟨device,in_use⟩ := lawful.held s used
      exact ⟨device,by rw [evolves.type _ in_use]; exact in_use⟩
  · rcases eq_or_ne s ip with rfl | away
    · rw [made.self]
      exact made.stored.symm
    · have before := (acquired.locked away).mp locked
      rw [made.other s away] at tight ⊢
      rw [lawful.saved s before tight,made.recorded.table layout made.place (lawful.named before.1).place]
      exact fun same => made.fresh s ⟨before.1,before.2.1,same⟩
  · have away : j ≠ k := by
      rintro rfl
      have directory := lawful.volume.directory j here
      rw [made.unused] at directory
      cases directory
    rw [made.recorded.table layout made.place (lawful.inside here) away]
    exact lawful.stored j here

end made

end Lxos.Fs
