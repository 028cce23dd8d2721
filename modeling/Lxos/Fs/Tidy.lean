import Lxos.Fs.Made
import Lxos.Fs.Coherent

/-! A file system that any sequence of operations keeps tidy: what the cache holds is on the
disk, inodes have no holes, and directories lead to inodes of the table. If it is tight, no
block is marked without an owner; then free inodes have no blocks, whatever their size. -/
namespace Lxos.Fs
open Lxos.Bytes Lxos.Places Lxos.Ownership

namespace Volume

/-- Directory `k` has whole entries, for inodes of the table. -/
structure Entries (v : Volume) (k : Nat) : Prop where
  whole : 16 ∣ (v.inode k).size.toNat
  named : ∀ j name n, 16 * j < (v.inode k).size.toNat → table (v.byte k) j = some (name,n) → n < v.sb.slots

/-- Free inodes have no blocks, and a marked block is reserved or owned. -/
structure Tight (v : Volume) : Prop where
  empty : ∀ k, (v.inode k).type = 0 → (v.inode k).addrs = fun _ => 0
  exact : ∀ b < v.sb.size, v.marked b → b < v.sb.nmeta ∨ ∃ p, v.ref p = b

structure Tidy (tight : Prop) (v : Volume) : Prop where
  sound : v.Sound
  filled : ∀ k, (v.inode k).type ≠ tDev → (tight → (v.inode k).type ≠ 0) → v.Filled k
  listing : ∀ k, (v.inode k).type = tDir → v.Entries k
  root : rootino < v.sb.slots
  tight : tight → v.Tight

section tidy
variable {tight : Prop} {v w : Volume} {k j c : Nat} {d : Dinode} {data : Block}

theorem Filled.small (filled : v.Filled k) : (v.inode k).size.toNat ≤ 71680 := by
  by_contra large
  have := (filled 140 (by omega)).1
  omega

theorem nmeta_positive {sb : Superblock} : 0 < sb.nmeta := by
  rw [Superblock.nmeta_eq]
  omega

theorem Entries.kept (entries : v.Entries k) (sb : w.sb = v.sb) (size : (w.inode k).size = (v.inode k).size)
    (byte : w.byte k = v.byte k) : w.Entries k := by
  refine ⟨?_,?_⟩
  all_goals rw [size]
  · exact entries.whole
  · rw [byte,sb]
    exact entries.named

/-- The entry that is written is for the inode, or for one before it when the number does not fit. -/
theorem Entries.put (entries : v.Entries k) {name : Buffer} {i n : Nat} (place : 16 * i ≤ (v.inode k).size.toNat)
    (inside : n < v.sb.slots) (sb : w.sb = v.sb)
    (size : (w.inode k).size.toNat = max (v.inode k).size.toNat (16 * i + 16))
    (byte : ∀ o, w.byte k o = if 16 * i ≤ o ∧ o < 16 * i + 16 then direntBytes name n (o - 16 * i) else v.byte k o) :
    w.Entries k := by
  obtain ⟨c,whole⟩ := entries.whole
  have number : (le16 (entryAt (w.byte k) i) 0).toNat = n % 65536 := by
    have same : le16 (entryAt (w.byte k) i) 0 = le16 (direntBytes name n) 0 := le16_congr fun o low => by
      have there : entryAt (w.byte k) i o = w.byte k (16 * i + o) := rfl
      rw [Nat.zero_add,there,byte,if_pos (by omega),Nat.add_sub_cancel_left]
    rw [same]
    unfold direntBytes
    rw [le16_put16,BitVec.toNat_ofNat]
  refine ⟨?_,fun j title m low here => ?_⟩
  · rw [size]
    omega
  rw [sb]
  rcases eq_or_ne j i with rfl | away
  · rw [table_number here,number]
    exact Nat.lt_of_le_of_lt (Nat.mod_le _ _) inside
  · have old : table (w.byte k) j = table (v.byte k) j := table_congr fun o low => by
      rw [byte,if_neg (by omega)]
    rw [old] at here
    refine entries.named j title m ?_ here
    rw [size] at low
    omega

theorem Tight.frame (tight : v.Tight) (frame : Frame v.marked w.marked k v w) (in_use : (v.inode k).type ≠ 0) : w.Tight := by
  refine ⟨fun j => ?_,fun b => ?_⟩
  · rw [(frame.kind j).1]
    intro zero
    rw [frame.other j fun same => in_use (same ▸ zero)]
    exact tight.empty j zero
  · rw [frame.sb]
    intro bound marked
    rcases Nat.lt_or_ge b v.sb.nmeta with reserved | data
    · exact Or.inl reserved
    have some : b ≠ 0 := by
      have := @nmeta_positive v.sb
      omega
    rcases frame.exact b bound marked with old | ⟨p,new,_⟩
    · refine (tight.exact b bound old).imp_right fun ⟨p,here⟩ => ?_
      exact ⟨p,(frame.keep p (by rw [here]; exact some)).trans here⟩
    · exact Or.inr ⟨p,new⟩

/-- A change of inode `k`. -/
theorem Tidy.frame (tidy : Tidy tight v) (frame : Frame v.marked w.marked k v w) (sound : w.Sound)
    (in_use : tight → (v.inode k).type ≠ 0) (filled : (v.inode k).type ≠ tDev → w.Filled k)
    (listing : (v.inode k).type = tDir → w.Entries k) : Tidy tight w := by
  refine ⟨sound,fun j => ?_,fun j => ?_,?_,fun strict => (tidy.tight strict).frame frame (in_use strict)⟩
  · rw [(frame.kind j).1]
    intro regular used
    rcases eq_or_ne j k with rfl | away
    · exact filled regular
    · intro bn
      rw [frame.other j away,frame.foreign (j,bn) away]
      exact tidy.filled j regular used bn
  · rw [(frame.kind j).1]
    intro directory
    rcases eq_or_ne j k with rfl | away
    · exact listing directory
    · exact (tidy.listing j directory).kept frame.sb (by rw [frame.other j away]) (frame.byte j away)
  · rw [frame.sb]
    exact tidy.root

/-- What inode `k` gave up or never had, no other inode has. -/
theorem Shrunk.exact (shrunk : Shrunk k v w) (sound : v.Sound) {b : Nat} (data : v.sb.nmeta ≤ b)
    (owned : ∃ p, v.ref p = b) (gone : ¬∃ i, v.ref (k,i) = b ∧ b ≠ 0) : ∃ p, w.ref p = b := by
  obtain ⟨⟨j,i⟩,here⟩ := owned
  have some : b ≠ 0 := by
    have := @nmeta_positive v.sb
    omega
  refine ⟨(j,i),(shrunk.foreign sound (j,i) fun same => gone ⟨i,?_,some⟩).trans here⟩
  rw [← here,← same]

/-- Inode `k` changed by itself. -/
theorem Tidy.shrink (tidy : Tidy tight v) (shrunk : Shrunk k v w) (sound : w.Sound)
    (filled : (w.inode k).type ≠ tDev → (tight → (w.inode k).type ≠ 0) → w.Filled k)
    (listing : (w.inode k).type = tDir → w.Entries k) (tight' : tight → w.Tight) : Tidy tight w := by
  refine ⟨sound,fun j => ?_,fun j => ?_,?_,tight'⟩
  · rcases eq_or_ne j k with rfl | away
    · exact filled
    · rw [shrunk.other j away]
      exact fun regular used => shrunk.filled tidy.sound away (tidy.filled j regular used)
  · rcases eq_or_ne j k with rfl | away
    · exact listing
    · rw [shrunk.other j away]
      exact fun directory =>
        (tidy.listing j directory).kept shrunk.sb (by rw [shrunk.other j away]) (shrunk.byte tidy.sound away)
  · rw [shrunk.sb]
    exact tidy.root

theorem store_shrunk (low : c < v.sb.bmapstart) (addrs : d.addrs = (v.inode k).addrs ∨ d.addrs = fun _ => 0) :
    Shrunk k v ((v.setInode k d).setBlock c data) := by
  have self : ((v.setInode k d).setBlock c data).inode k = d := Function.update_self _ _ _
  refine ⟨rfl,fun j away => Function.update_of_ne away _ _,?_,fun b high => ?_⟩
  · rw [self]
    exact addrs
  · rw [Superblock.nmeta_eq] at high
    exact Function.update_of_ne (by omega) _ _

/-- A dinode is stored anew. It keeps its blocks, or it has none and had none that matter. -/
theorem Tidy.store (tidy : Tidy tight v) (low : c < v.sb.bmapstart)
    (content : d.size = 0 ∧ d.addrs = (fun _ => 0) ∧ (v.inode k).type = 0 ∨
      d.size = (v.inode k).size ∧ d.addrs = (v.inode k).addrs ∧ d.type = (v.inode k).type) :
    Tidy tight ((v.setInode k d).setBlock c data) := by
  have layout := tidy.sound.layout
  have self : ((v.setInode k d).setBlock c data).inode k = d := Function.update_self _ _ _
  have marks (b : Nat) (bound : b < v.sb.size) : ((v.setInode k d).setBlock c data).marked b ↔ v.marked b :=
    table_marked layout low bound
  have shrunk : Shrunk k v ((v.setInode k d).setBlock c data) :=
    store_shrunk low (content.symm.imp (fun h => h.2.1) fun h => h.2.1)
  have room := layout.room
  have sound : ((v.setInode k d).setBlock c data).Sound := by
    refine shrunk.owned tidy.sound (fun b reserved => (marks b (by omega)).mpr (tidy.sound.reserved b reserved)) fun p some => ?_
    have there := some
    rw [shrunk.sub tidy.sound p some] at there
    exact (marks _ (tidy.sound.range p there).2).mpr (tidy.sound.held p there)
  rcases content with ⟨size,addrs,unused⟩ | ⟨size,addrs,type⟩
  · refine tidy.shrink shrunk sound (fun _ _ bn below => ?_) (fun _ => ?_) fun strict => ?_
    · rw [self,size] at below
      exact absurd below (Nat.not_lt_zero _)
    · refine ⟨by rw [self,size]; exact Nat.dvd_zero 16,fun i name n inside => ?_⟩
      rw [self,size] at inside
      exact absurd inside (Nat.not_lt_zero _)
    · have tight := tidy.tight strict
      refine ⟨fun j => ?_,fun b bound marked => ?_⟩
      · rcases eq_or_ne j k with rfl | away
        · rw [self]
          exact fun _ => addrs
        · rw [shrunk.other j away]
          exact tight.empty j
      · rcases Nat.lt_or_ge b v.sb.nmeta with reserved | high
        · exact Or.inl reserved
        · refine (tight.exact b bound ((marks b bound).mp marked)).imp_right fun owned => ?_
          refine shrunk.exact tidy.sound high owned fun ⟨i,here,nonzero⟩ => nonzero ?_
          rw [← here]
          exact ref_none (tight.empty k unused) i
  · have ref : ((v.setInode k d).setBlock c data).ref = v.ref := by
      funext p
      rcases eq_or_ne p.1 k with rfl | away
      · exact shrunk.same tidy.sound (by rw [self]; exact addrs) p.2
      · exact shrunk.foreign tidy.sound p away
    have byte : ((v.setInode k d).setBlock c data).byte = v.byte :=
      (table_byte (setInode_owned tidy.sound addrs) low).trans (setInode_byte addrs)
    refine tidy.shrink shrunk sound ?_ ?_ fun strict => ?_
    · rw [self,type]
      intro regular used bn
      rw [self,size,ref]
      exact tidy.filled k regular used bn
    · rw [self,type]
      intro directory
      exact (tidy.listing k directory).kept rfl (by rw [self]; exact size)
        (congrFun byte k)
    · have tight := tidy.tight strict
      refine ⟨fun j => ?_,fun b bound marked => ?_⟩
      · rcases eq_or_ne j k with rfl | away
        · rw [self,type,addrs]
          exact tight.empty j
        · rw [shrunk.other j away]
          exact tight.empty j
      · rw [ref]
        exact tight.exact b bound ((marks b bound).mp marked)

/-- An inode without links is freed. -/
theorem Tidy.freed (tidy : Tidy tight v) (freed : Freed k v w) : Tidy tight w := by
  have shrunk := freed.shrunk
  refine tidy.shrink shrunk (freed.sound tidy.sound) (fun _ _ bn below => ?_) (fun directory => ?_) fun strict => ?_
  · rw [freed.inode] at below
    exact absurd below (Nat.not_lt_zero _)
  · rw [freed.inode] at directory
    exact absurd directory (show (0 : BitVec 16) ≠ tDir by decide)
  · have tight := tidy.tight strict
    refine ⟨fun j => ?_,fun b bound marked => ?_⟩
    · rcases eq_or_ne j k with rfl | away
      · rw [freed.inode]
        exact fun _ => rfl
      · rw [shrunk.other j away]
        exact tight.empty j
    · rw [shrunk.sb] at bound ⊢
      obtain ⟨old,gone⟩ := (freed.marks b bound).mp marked
      rcases Nat.lt_or_ge b v.sb.nmeta with reserved | high
      · exact Or.inl reserved
      · exact (tight.exact b bound old).imp_right fun owned => shrunk.exact tidy.sound high owned gone

end tidy
end Volume

/-- The kernel runs on such a volume, and the cache agrees with it. -/
structure Tidy (tight : Prop) (st : FsState) : Prop where
  volume : (st.volume rootdev).Tidy tight
  unique : st.Unique
  coherent : st.Coherent rootdev
  super : st.Super rootdev
  held : ∀ s, 0 < (st.icache s).ref → (st.icache s).dev = rootdev ∧ (st.icache s).inum < st.sb.slots

/-- The references are to inodes in use. -/
def FsState.InUse (st : FsState) : Prop :=
  ∀ s, 0 < (st.icache s).ref → ((st.volume rootdev).inode (st.icache s).inum).type ≠ 0

/-- Slots that stay in use stay with their inodes. These keep their types, or were free. -/
def Lasting (st st' : FsState) : Prop :=
  ∀ s, 0 < (st.icache s).ref → 0 < (st'.icache s).ref → (st'.icache s).inum = (st.icache s).inum ∧
    (((st'.volume rootdev).inode (st.icache s).inum).type = ((st.volume rootdev).inode (st.icache s).inum).type ∨
      ((st.volume rootdev).inode (st.icache s).inum).type = 0 ∧
        ((st'.volume rootdev).inode (st.icache s).inum).type ≠ tDir)

section tidy
variable {tight : Prop} {st st1 st' : FsState} {ip dp s : Slot} {k n off : Nat} {src : Buffer}

theorem Lasting.still (volume : st'.volume rootdev = st.volume rootdev)
    (inum : ∀ s, 0 < (st.icache s).ref → (st'.icache s).inum = (st.icache s).inum) : Lasting st st' := by
  intro s used _
  rw [volume]
  exact ⟨inum s used,Or.inl rfl⟩

theorem Lasting.refl (st : FsState) : Lasting st st := Lasting.still rfl fun _ _ => rfl

theorem Lasting.trans (first : Lasting st st1) (second : Lasting st1 st')
    (kept : ∀ s, 0 < (st.icache s).ref → 0 < (st'.icache s).ref → 0 < (st1.icache s).ref) : Lasting st st' := by
  intro s used used'
  have middle := kept s used used'
  obtain ⟨inum,type⟩ := first s used middle
  obtain ⟨inum',type'⟩ := second s middle used'
  rw [inum] at inum' type'
  refine ⟨inum',?_⟩
  rcases type with same | ⟨zero,file⟩
  · rw [← same]
    exact type'
  · rcases type' with same' | ⟨_,file'⟩
    · rw [same']
      exact Or.inr ⟨zero,file⟩
    · exact Or.inr ⟨zero,file'⟩

theorem FsState.InUse.step (live : st.InUse) (lasting : Lasting st st') (fresh : ∀ s, ¬0 < (st.icache s).ref →
    0 < (st'.icache s).ref → ((st'.volume rootdev).inode (st'.icache s).inum).type ≠ 0) : st'.InUse := by
  intro s used'
  by_cases used : 0 < (st.icache s).ref
  · obtain ⟨inum,type⟩ := lasting s used used'
    have before := live s used
    rw [inum,type.resolve_right fun zero => before zero.1]
    exact before
  · exact fresh s used used'

theorem Tidy.named (tidy : Tidy tight st) (used : 0 < (st.icache ip).ref) : Named rootdev ip st :=
  ⟨tidy.unique,used,(tidy.held ip used).1,(tidy.held ip used).2⟩

theorem Tidy.ready (tidy : Tidy tight st) (used : 0 < (st.icache ip).ref) (valid : (st.icache ip).valid = true) :
    Ready rootdev ip st :=
  ⟨tidy.unique,⟨used,(tidy.held ip used).1,valid⟩,(tidy.held ip used).2,tidy.volume.sound⟩

/-- An inode that is no device has no holes. -/
theorem Tidy.filled (tidy : Tidy tight st) (ready : Ready rootdev ip st) (regular : (st.icache ip).type ≠ tDev)
    (in_use : tight → (st.icache ip).type ≠ 0) : (st.volume rootdev).Filled (st.icache ip).inum := by
  refine tidy.volume.filled _ ?_ ?_
  all_goals rw [ready.copy]
  · exact regular
  · exact in_use

theorem Tidy.directory (tidy : Tidy tight st) (ready : Ready rootdev ip st) (type : (st.icache ip).type = tDir) :
    (st.volume rootdev).Filled (st.icache ip).inum := by
  refine tidy.filled ready ?_ fun _ => ?_
  all_goals
    rw [type]
    decide

theorem Tidy.scan (tidy : Tidy tight st) (ready : Ready rootdev dp st) (type : (st.icache dp).type = tDir) :
    Scan rootdev dp st := by
  have copy := ready.copy
  have small := (tidy.directory ready type).small
  refine ⟨ready,type,?_,?_⟩
  · rw [← copy]
    exact (tidy.volume.listing _ (by rw [copy]; exact type)).whole
  · rw [← copy]
    exact small

theorem Tidy.mounted (tidy : Tidy tight st) : Mounted rootdev st.sb (st.disk rootdev) st :=
  ⟨rfl,rfl,tidy.unique,tidy.coherent⟩

/-- The disk stays, and the cache agrees with it again. -/
theorem Tidy.still (tidy : Tidy tight st) (mounted : Mounted rootdev st.sb (st.disk rootdev) st')
    (held : ∀ s, 0 < (st'.icache s).ref → (st'.icache s).dev = rootdev ∧ (st'.icache s).inum < st.sb.slots) :
    Tidy tight st' ∧ st'.volume rootdev = st.volume rootdev := by
  have volume : st'.volume rootdev = st.volume rootdev := mounted.volume.trans tidy.mounted.volume.symm
  refine ⟨⟨by rw [volume]; exact tidy.volume,mounted.unique,mounted.coherent,?_,?_⟩,volume⟩
  · unfold FsState.Super
    rw [mounted.sb,mounted.disk]
    exact tidy.super
  · rw [mounted.sb]
    exact held

theorem Tidy.idle (tidy : Tidy tight st) (idle : Idle st st') : Tidy tight st' ∧ st'.volume rootdev = st.volume rootdev := by
  refine tidy.still (tidy.mounted.idle idle) fun s => ?_
  rw [idle.icache]
  exact tidy.held s

theorem Tidy.got (tidy : Tidy tight st) (got : Got rootdev k ip st st') (place : k < st.sb.slots) : Tidy tight st' ∧ st'.volume rootdev = st.volume rootdev := by
  refine tidy.still (tidy.mounted.got got) fun s used => ?_
  rcases eq_or_ne s ip with rfl | away
  · rw [got.inum]
    exact ⟨got.device,place⟩
  · rw [got.other s away] at used ⊢
    exact tidy.held s used

theorem Tidy.loaded (tidy : Tidy tight st) (used : 0 < (st.icache ip).ref) :
    Tidy tight (ilock st ip) ∧ (ilock st ip).volume rootdev = st.volume rootdev := by
  refine tidy.still (tidy.mounted.loaded (tidy.named used)) fun s => ?_
  have calm := ilock_calm st ip
  rw [calm.ref,calm.dev,calm.inum]
  exact tidy.held s

theorem Tidy.recount (tidy : Tidy tight st) {r : Int} (positive : 0 < r → 0 < (st.icache ip).ref) :
    Tidy tight (st.setInode ip { st.icache ip with ref := r }) ∧
      (st.setInode ip { st.icache ip with ref := r }).volume rootdev = st.volume rootdev := by
  refine tidy.still (tidy.mounted.counted positive) fun s used => ?_
  rw [(recount_field st ip r s).1,(recount_field st ip r s).2.1]
  exact tidy.held s (recount_used positive used)

/-- The superblock is outside of what operations on files change. -/
theorem framed_super {used used' : Nat → Prop} (layout : st.sb.Layout) (place : k < st.sb.slots) (super : st.Super rootdev)
    (frame : Volume.Frame used used' k (st.volume rootdev) (st'.volume rootdev)) : st'.Super rootdev := by
  have block : st'.disk rootdev 1 = st.disk rootdev 1 := by
    have low := layout.super
    have apart := (layout.iblock_range place).1
    funext o
    refine frame.table 1 (Nat.lt_trans low layout.table) o fun here => ?_
    have same : 1 = st.sb.iblock k := here.1
    omega
  have sb : st'.sb = st.sb := frame.sb
  unfold FsState.Super
  rw [sb,block]
  exact super

theorem Tidy.framed (tidy : Tidy tight st) (ready : Ready rootdev ip st) (change : Local ip st st')
    (frame : Volume.Frame (st.volume rootdev).marked (st'.volume rootdev).marked (st.icache ip).inum
      (st.volume rootdev) (st'.volume rootdev))
    (volume : (st'.volume rootdev).Tidy tight)
    (saved : (st'.icache ip).toDinode = st'.table rootdev (st.icache ip).inum) : Tidy tight st' ∧ Lasting st st' := by
  have sb : st'.sb = st.sb := frame.sb
  refine ⟨⟨volume,change.unique tidy.unique,fun s locked => ?_,framed_super ready.sound.layout ready.place tidy.super frame,
    fun s used => ?_⟩,fun s _ _ => ⟨change.inum s,Or.inl (frame.kind _).1⟩⟩
  · rcases eq_or_ne s ip with rfl | away
    · rw [change.inum]
      exact saved
    · have same := change.other s away
      unfold FsState.Locked at locked
      rw [same] at locked ⊢
      have other : (st.icache s).inum ≠ (st.icache ip).inum := fun number =>
        away (tidy.unique s ip locked.1 ready.locked.1 (locked.2.1.trans ready.locked.2.1.symm) number)
      rw [tidy.coherent s locked,framed_table ready.sound.layout ready.place frame (tidy.named locked.1).place other]
  · rw [change.ref] at used
    rw [change.dev,change.inum,sb]
    exact tidy.held s used

/-- A read changes nothing on the disk. -/
theorem Tidy.read (tidy : Tidy tight st) (used : 0 < (st.icache ip).ref) (valid : (st.icache ip).valid = true)
    (in_use : tight → (st.icache ip).type ≠ 0) (dst : Buffer) (off : Nat) {n : Nat} (width : n < 4294967296) : Idle st (readi st ip dst off n).2.2 := by
  have ready := tidy.ready used valid
  by_cases device : (st.icache ip).type = tDev
  · rw [readi_device device]
    exact Idle.refl st
  · have filled := tidy.filled ready device in_use
    exact (readi_seen ready dst off width (Or.inl filled)).1.idle filled

theorem Tidy.wrote (tidy : Tidy tight st) (ready : Ready rootdev ip st) (wrote : Wrote rootdev ip src off n st st')
    (in_use : tight → (st.icache ip).type ≠ 0)
    (listing : (st.icache ip).type = tDir → (st'.volume rootdev).Entries (st.icache ip).inum) :
    Tidy tight st' ∧ Lasting st st' := by
  refine tidy.framed ready wrote.change wrote.frame (tidy.volume.frame wrote.frame wrote.sound (fun strict => ?_)
    (fun _ => wrote.filled) fun directory => ?_) ?_
  · rw [ready.copy]
    exact in_use strict
  · rw [ready.copy] at directory
    exact listing directory
  · exact (wrote.saved (tidy.coherent ip ready.locked).symm).symm

/-- A directory is not written in this way. -/
theorem Tidy.write (tidy : Tidy tight st) (used : 0 < (st.icache ip).ref) (valid : (st.icache ip).valid = true)
    (in_use : tight → (st.icache ip).type ≠ 0) (file : (st.icache ip).type ≠ tDir) (width : n < 4294967296)
    (enough : (writei st ip src off n).2.exhausted = false) :
    Tidy tight (writei st ip src off n).2 ∧ Lasting st (writei st ip src off n).2 := by
  have ready := tidy.ready used valid
  rcases eq_or_ne (st.icache ip).type tDev with device | regular
  · rw [writei_device device]
    exact ⟨tidy,Lasting.refl st⟩
  by_cases bad : off > (st.icache ip).size.toNat ∨ 71680 < off + n
  · rw [writei_refused regular width bad]
    exact ⟨tidy,Lasting.refl st⟩
  · obtain ⟨start,room⟩ := not_or.mp bad
    exact tidy.wrote ready (writei_wrote ready regular (tidy.filled ready regular in_use) (Nat.not_lt.mp start) (Nat.not_lt.mp room)
      enough).2 in_use fun directory => absurd directory file

/-- An entry for an inode of the table. -/
theorem Tidy.entered (tidy : Tidy tight st) (ready : Ready rootdev dp st) (type : (st.icache dp).type = tDir) {i : Nat}
    (place : 16 * i ≤ (st.icache dp).size.toNat) {name : Buffer} (inside : n < st.sb.slots)
    (free : (writei st dp (direntBytes name n) (16 * i) direntSize).2.exhausted = false) :
    Tidy tight (writei st dp (direntBytes name n) (16 * i) direntSize).2 ∧
      Lasting st (writei st dp (direntBytes name n) (16 * i) direntSize).2 := by
  have regular : (st.icache dp).type ≠ tDev := by
    rw [type]
    decide
  rcases Nat.lt_or_ge 71680 (16 * i + direntSize) with full | room
  · rw [writei_refused regular (by decide) (Or.inr full)]
    exact ⟨tidy,Lasting.refl st⟩
  have directory : ((st.volume rootdev).inode (st.icache dp).inum).type = tDir := by
    rw [ready.copy]
    exact type
  have wrote := (writei_wrote ready regular (tidy.directory ready type) place room free).2
  refine tidy.wrote ready wrote (fun _ => by rw [type]; decide) fun _ => ?_
  exact (tidy.volume.listing _ directory).put (by rw [ready.copy]; exact place) inside wrote.frame.sb wrote.size wrote.byte

/-- The last reference to an inode without links frees it. -/
theorem Tidy.gone (tidy : Tidy tight st) (ready : Ready rootdev ip st) (gone : Gone rootdev ip st st') (last : (st.icache ip).ref = 1) : Tidy tight st' ∧ Lasting st st' := by
  have freed := gone.freed ready
  have left {s : Slot} (used : 0 < (st'.icache s).ref) : s ≠ ip := by
    rintro rfl
    rw [gone.self] at used
    dsimp only at used
    omega
  have apart {s : Slot} (used : 0 < (st'.icache s).ref) :
      (st'.volume rootdev).inode (st.icache s).inum = (st.volume rootdev).inode (st.icache s).inum := by
    have away := left used
    rw [gone.other s away] at used
    refine freed.shrunk.other _ fun number => away ?_
    exact tidy.unique s ip used ready.locked.1 ((tidy.held s used).1.trans ready.locked.2.1.symm) number
  refine ⟨⟨tidy.volume.freed freed,gone.unique ready,fun s locked => ?_,gone.super,fun s used => ?_⟩,fun s _ used => ?_⟩
  · obtain ⟨away,before,other⟩ := gone.unlocked tidy.unique ready locked
    rw [gone.other s away,tidy.coherent s before,gone.table _ (tidy.named before.1).place other]
  · have away := left used
    rw [gone.other s away] at used ⊢
    rw [gone.sb]
    exact tidy.held s used
  · have away := left used
    rw [apart used,gone.other s away]
    exact ⟨rfl,Or.inl rfl⟩

/-- `iput` counts down in its slot, and unloads it with the last reference only. -/
theorem Tidy.iput_slots (tidy : Tidy tight st) (used : 0 < (st.icache ip).ref) :
    (∀ s, s ≠ ip → ((iput st ip).icache s) = st.icache s) ∧ ((iput st ip).icache ip).ref = (st.icache ip).ref - 1 ∧
      (1 < (st.icache ip).ref → ((iput st ip).icache ip).valid = (st.icache ip).valid) := by
  by_cases last : (st.icache ip).valid = true ∧ (st.icache ip).nlink = 0 ∧ (st.icache ip).ref = 1
  · obtain ⟨valid,linkless,one⟩ := last
    have gone := iput_gone (tidy.ready used valid) tidy.super linkless one
    refine ⟨gone.other,by rw [gone.self],fun more => ?_⟩
    omega
  · unfold Fs.iput
    dsimp only
    rw [if_neg last,FsState.setInode_same]
    exact ⟨fun s away => FsState.setInode_other _ _ _ _ away,rfl,fun _ => rfl⟩

theorem Tidy.iput (tidy : Tidy tight st) (used : 0 < (st.icache ip).ref) :
    Tidy tight (iput st ip) ∧ Lasting st (iput st ip) := by
  by_cases last : (st.icache ip).valid = true ∧ (st.icache ip).nlink = 0 ∧ (st.icache ip).ref = 1
  · obtain ⟨valid,linkless,one⟩ := last
    have ready := tidy.ready used valid
    exact tidy.gone ready (iput_gone ready tidy.super linkless one) one
  · unfold Fs.iput
    dsimp only
    rw [if_neg last]
    obtain ⟨kept,volume⟩ := tidy.recount (r := (st.icache ip).ref - 1) fun _ => used
    exact ⟨kept,Lasting.still volume fun s _ => (recount_field st ip _ s).2.1⟩

/-- A name is not found, or is that of an entry. No block changes. -/
theorem Tidy.answered (tidy : Tidy tight st) (ready : Ready rootdev dp st) (type : (st.icache dp).type = tDir) {name : Buffer}
    {r : Option (Slot × Nat) × FsState} (ok : dirlookup st dp name = .ok r) :
    match r.1 with
    | none => Idle st r.2
    | some (ip,_) => ∃ st1 n, Idle st st1 ∧ Got rootdev n ip st1 r.2 ∧ ∃ i title,
      16 * i < ((st.volume rootdev).inode (st.icache dp).inum).size.toNat ∧
      table ((st.volume rootdev).byte (st.icache dp).inum) i = some (title,n) := by
  have filled := tidy.directory ready type
  have looked := dirlookup_looked (tidy.scan ready type) ok (Or.inl filled)
  obtain ⟨_ | ⟨ip,off⟩,st'⟩ := r
  · exact looked.1.idle filled
  · obtain ⟨st1,i,seen,inside,_,same,_,found⟩ := looked
    obtain ⟨n,here⟩ := matches_iff.mp same
    rw [← table_number here] at found
    rw [← ready.copy] at inside
    exact ⟨st1,n,seen.idle filled,iget_got found,i,_,inside,here⟩

/-- The inode of the entry is one of the table. -/
theorem Tidy.looked (tidy : Tidy tight st) (ready : Ready rootdev dp st) (type : (st.icache dp).type = tDir) {name : Buffer}
    {r : Option (Slot × Nat) × FsState} (ok : dirlookup st dp name = .ok r) :
    match r.1 with
    | none => Idle st r.2
    | some (ip,_) => ∃ st1 n, Idle st st1 ∧ Got rootdev n ip st1 r.2 ∧ n < st.sb.slots := by
  have answered := tidy.answered ready type ok
  obtain ⟨_ | ⟨ip,off⟩,st'⟩ := r
  · exact answered
  · obtain ⟨st1,n,idle,got,i,title,inside,here⟩ := answered
    rw [← ready.copy] at type
    exact ⟨st1,n,idle,got,(tidy.volume.listing _ type).named i title n inside here⟩

theorem Tidy.found (tidy : Tidy tight st) (idle : Idle st st1) (got : Got rootdev n ip st1 st') (place : n < st.sb.slots) :
    Tidy tight st' ∧ Lasting st st' := by
  obtain ⟨tidy1,volume1⟩ := tidy.idle idle
  obtain ⟨tidy2,volume2⟩ := tidy1.got got (by rw [idle.sb]; exact place)
  refine ⟨tidy2,Lasting.still (volume2.trans volume1) fun s used => ?_⟩
  rw [← idle.icache] at used ⊢
  exact got.number used

/-- No reference is taken or given up, and slots in use stay loaded. -/
def Firm (st st' : FsState) : Prop := ∀ s, (st'.icache s).ref = (st.icache s).ref ∧
  (0 < (st.icache s).ref → (st.icache s).valid = true → (st'.icache s).valid = true)

theorem Firm.same (icache : st'.icache = st.icache) : Firm st st' := by
  intro s
  rw [icache]
  exact ⟨rfl,fun _ => id⟩

theorem Firm.trans (first : Firm st st1) (second : Firm st1 st') : Firm st st' := by
  intro s
  obtain ⟨ref,valid⟩ := first s
  obtain ⟨ref',valid'⟩ := second s
  refine ⟨ref'.trans ref,fun used loaded => valid' ?_ (valid used loaded)⟩
  rw [ref]
  exact used

theorem Local.firm (change : Local ip st st') : Firm st st' := by
  intro s
  rw [change.ref,change.valid]
  exact ⟨rfl,fun _ => id⟩

/-- A reference is taken and given back. -/
theorem Tidy.returned (tidy : Tidy tight st') (got : Got rootdev k ip st st') : Firm st (Fs.iput st' ip) := by
  obtain ⟨other,ref,valid⟩ := tidy.iput_slots got.names.1
  intro s
  rcases eq_or_ne s ip with rfl | away
  · rw [ref,got.ref]
    refine ⟨Int.add_sub_cancel _ 1,fun used loaded => ?_⟩
    rw [valid (by rw [got.ref]; omega)]
    rcases got.origin with ⟨_,_,same⟩ | ⟨_,zero,_⟩
    · rw [same]
      exact loaded
    · rw [zero] at used
      exact absurd used (lt_irrefl 0)
  · rw [other s away,got.other s away]
    exact ⟨rfl,fun _ => id⟩

/-- `dirlink` finds the name, or writes its entry where the first free one or the end is. -/
theorem Tidy.dirlink_cases (tidy : Tidy tight st) (ready : Ready rootdev dp st) (type : (st.icache dp).type = tDir)
    {name : Buffer} {r : Int × FsState} (ok : Fs.dirlink st dp name n = .ok r) :
    (∃ ip off st1, dirlookup st dp name = .ok (some (ip,off),st1) ∧ r.2 = Fs.iput st1 ip) ∨
    ∃ st1 st2 i, (dirlookup st dp name = .ok (none,st1) ∧ Idle st st1) ∧
      (dirlinkLoop dp (entries + 1) st1 st1.stack 0 = .ok (16 * i,st2) ∧ Idle st1 st2) ∧
      16 * i ≤ (st.icache dp).size.toNat ∧
      r.2 = if (writei st2 dp (direntBytes name n) (16 * i) direntSize).1 ≠ ((direntSize : Nat) : Int) then
        kprint (writei st2 dp (direntBytes name n) (16 * i) direntSize).2 .dirlinkWrite
      else (writei st2 dp (direntBytes name n) (16 * i) direntSize).2 := by
  unfold Fs.dirlink at ok
  cases looking : dirlookup st dp name with
  | error e =>
    rw [looking] at ok
    cases ok
  | ok answer =>
    have looked := tidy.looked ready type looking
    obtain ⟨_ | ⟨ip,off⟩,st1⟩ := answer
    · rw [looking] at ok
      dsimp only at ok looked
      cases looping : dirlinkLoop dp (entries + 1) st1 st1.stack 0 with
      | error e =>
        rw [looping] at ok
        cases ok
      | ok place =>
        obtain ⟨off,st2⟩ := place
        rw [looping] at ok
        dsimp only at ok
        obtain rfl := Except.ok.inj ok
        obtain ⟨tidy1,_⟩ := tidy.idle looked
        have same1 : st1.icache dp = st.icache dp := congrFun looked.icache dp
        have ready1 := ready.idle looked
        have type1 : (st1.icache dp).type = tDir := by rw [same1]; exact type
        have filled1 := tidy1.directory ready1 type1
        obtain ⟨seen,i,here,place⟩ := dirlinkLoop_place (j := 0) _ (tidy1.scan ready1 type1) st1.stack
          (Nat.zero_le _) (fun l low => absurd low (Nat.not_lt_zero l)) looping (Or.inl filled1)
        have here : off = 16 * i := here
        subst here
        exact Or.inr ⟨st1,st2,i,⟨rfl,looked⟩,⟨looping,seen.idle filled1⟩,by rw [← same1]; exact place.within,rfl⟩
    · rw [looking] at ok
      obtain rfl := Except.ok.inj ok
      exact Or.inl ⟨ip,off,st1,rfl,rfl⟩

/-- `dirlink` of an inode of the table. -/
theorem Tidy.dirlink (tidy : Tidy tight st) (ready : Ready rootdev dp st) (type : (st.icache dp).type = tDir)
    (inside : n < st.sb.slots)
    {name : Buffer} {r : Int × FsState} (ok : Fs.dirlink st dp name n = .ok r) (enough : r.2.exhausted = false) :
    Tidy tight r.2 ∧ Lasting st r.2 ∧ Firm st r.2 := by
  rcases tidy.dirlink_cases ready type ok with ⟨ip,off,st1,looking,here⟩ | ⟨st1,st2,i,⟨_,first⟩,⟨_,second⟩,place,here⟩
  · rw [here]
    obtain ⟨st0,k,idle,got,place⟩ := tidy.looked ready type looking
    obtain ⟨tidy1,lasting⟩ := tidy.found idle got place
    have grows (s : Slot) (used : 0 < (st.icache s).ref) : 0 < (st1.icache s).ref := by
      rcases eq_or_ne s ip with rfl | away
      · exact got.names.1
      · rw [got.other s away,idle.icache]
        exact used
    obtain ⟨tidy2,lasting'⟩ := tidy1.iput got.names.1
    exact ⟨tidy2,lasting.trans lasting' fun s used _ => grows s used,(Firm.same idle.icache).trans (tidy1.returned got)⟩
  · rw [here] at enough ⊢
    have printed := kprint_quiet (writei st2 dp (direntBytes name n) (16 * i) direntSize).2
      ((writei st2 dp (direntBytes name n) (16 * i) direntSize).1 ≠ ((direntSize : Nat) : Int))
      (show Message.dirlinkWrite ≠ .ballocOut ∧ Message.dirlinkWrite ≠ .iallocOut by decide)
    have free : (writei st2 dp (direntBytes name n) (16 * i) direntSize).2.exhausted = false :=
      exhausted_of_suffix printed.trace enough
    have idle := first.trans second
    obtain ⟨tidy2,volume2⟩ := tidy.idle idle
    have same : st2.icache dp = st.icache dp := congrFun idle.icache dp
    obtain ⟨tidy3,lasting⟩ := @Tidy.entered tight st2 dp n tidy2 (ready.idle idle) (by rw [same]; exact type) i
      (by rw [same]; exact place) name (by rw [idle.sb]; exact inside) free
    have firm := (writei_local st2 dp (direntBytes name n) (16 * i) direntSize).firm
    obtain ⟨tidy4,volume4⟩ := tidy3.idle printed
    have before : Lasting st st2 := Lasting.still volume2 fun s _ => by rw [idle.icache]
    refine ⟨tidy4,(before.trans lasting fun s used _ => ?_).trans (Lasting.still volume4 fun s _ => ?_) fun s _ used => ?_,
      ((Firm.same idle.icache).trans firm).trans (Firm.same printed.icache)⟩
    · rw [idle.icache]
      exact used
    · rw [printed.icache]
    · rw [printed.icache] at used
      exact used

/-- A dinode is stored anew, and slot `ip` has it. -/
theorem Tidy.acquired (tidy : Tidy tight st) {d : Dinode} (acquired : Acquired k d ip st st')
    (content : d.size = 0 ∧ d.addrs = (fun _ => 0) ∧ ((st.volume rootdev).inode k).type = 0 ∨
      d.size = ((st.volume rootdev).inode k).size ∧ d.addrs = ((st.volume rootdev).inode k).addrs ∧
        d.type = ((st.volume rootdev).inode k).type) :
    Tidy tight st' ∧ (d.type = ((st.volume rootdev).inode k).type ∨ ((st.volume rootdev).inode k).type = 0 ∧ d.type ≠ tDir ∨
      (∀ s, ¬st.Names rootdev k s) → Lasting st st') ∧ (st'.volume rootdev).inode k = d := by
  have layout : st.sb.Layout := tidy.volume.sound.layout
  have volume := acquired.volume layout tidy.unique
  have self : (st'.volume rootdev).inode k = d := by
    rw [volume]
    exact Function.update_self _ _ _
  refine ⟨⟨?_,acquired.unique tidy.unique,fun s locked => ?_,?_,fun s used => ?_⟩,fun change s used _ => ?_,self⟩
  · rw [volume]
    exact tidy.volume.store (layout.iblock_range acquired.place).2 content
  · rcases eq_or_ne s ip with rfl | away
    · rw [acquired.copy locked.2.2,acquired.inum,acquired.stored]
    · have before := (acquired.locked away).mp locked
      rw [acquired.other s away,tidy.coherent s before,
        acquired.recorded.table layout acquired.place (tidy.named before.1).place]
      exact fun same => away (acquired.alone s ⟨before.1,before.2.1,same⟩)
  · exact acquired.recorded.super layout acquired.place tidy.super
  · rw [acquired.recorded.sb]
    rcases eq_or_ne s ip with rfl | away
    · rw [acquired.inum]
      exact ⟨acquired.device,acquired.place⟩
    · rw [acquired.other s away] at used ⊢
      exact tidy.held s used
  · by_cases same : (st.icache s).inum = k
    · have names : st.Names rootdev k s := ⟨used,(tidy.held s used).1,same⟩
      obtain rfl := acquired.alone s names
      rw [acquired.inum,same,self]
      rw [← or_assoc] at change
      exact ⟨rfl,change.resolve_right fun none => none s names⟩
    · have other : (st'.volume rootdev).inode (st.icache s).inum = (st.volume rootdev).inode (st.icache s).inum := by
        rw [volume]
        exact Function.update_of_ne same _ _
      rw [acquired.other s (acquired.apart used same),other]
      exact ⟨rfl,Or.inl rfl⟩

/-- A dinode that is free on the disk is free. -/
theorem Tidy.unused (tidy : Tidy tight st) (free : (st.table rootdev k).type = 0) (inside : k < st.sb.slots) :
    ((st.volume rootdev).inode k).type = 0 := by
  rw [FsState.volume_inode inside,tidy.coherent.dinode]
  exact free

/-- The inode that `create` makes. Where a slot had the free dinode loaded, its type stays 0. -/
structure Created (tight : Prop) (kind : BitVec 16) (ip : Slot) (st st' : FsState) : Prop where
  tidy : Tidy tight st'
  used : 0 < (st'.icache ip).ref
  valid : (st'.icache ip).valid = true
  type : (st'.icache ip).type = kind ∨ (st'.icache ip).type = 0
  fresh : st.InUse → (st'.icache ip).type = kind
  apart : ∀ s, 0 < (st.icache s).ref → ((st.volume rootdev).inode (st.icache s).inum).type ≠ 0 → s ≠ ip
  other : ∀ s, s ≠ ip → st'.icache s = st.icache s
  lasting : kind ≠ tDir ∨ st.InUse → Lasting st st'

theorem Tidy.created (tidy : Tidy tight st) {type : BitVec 16} (claimed : Claimed rootdev type k ip st st1)
    (major minor : BitVec 16) : Created tight type ip st (iupdate ((ilock st1 ip).setDinode ip
      { ((ilock st1 ip).icache ip).toDinode with major := major,minor := minor,nlink := 1 }) ip) := by
  have layout : st.sb.Layout := tidy.volume.sound.layout
  have unused := tidy.unused claimed.free (Nat.lt_of_lt_of_le claimed.bound layout.count)
  obtain ⟨old,origin,acquired,self⟩ := claimed.created layout tidy.unique major minor
  have cached (here : st.Locked rootdev ip ∧ (st.icache ip).inum = k ∧ old = (st.icache ip).toDinode) :
      (st.volume rootdev).inode k = old := by
    obtain ⟨locked,number,rfl⟩ := here
    have copy := (tidy.ready locked.1 locked.2.2).copy
    rw [number] at copy
    exact copy
  have plain : old.type = type ∨ old.type = 0 := by
    rcases origin with rfl | here
    · exact Or.inl rfl
    · rw [← cached here]
      exact Or.inr unused
  obtain ⟨tidy',lasting,_⟩ := tidy.acquired acquired (by
    rcases origin with rfl | here
    · exact Or.inl ⟨rfl,rfl,unused⟩
    · rw [cached here]
      exact Or.inr ⟨rfl,rfl,rfl⟩)
  have fresh (live : st.InUse) (s : Slot) : ¬st.Names rootdev k s := by
    rintro ⟨used,_,rfl⟩
    exact live s used unused
  refine ⟨tidy',?_,?_,?_,fun live => ?_,fun s used taken => acquired.apart used fun same => taken (same ▸ unused),
    acquired.other,fun change => lasting ?_⟩
  · rw [self]
    rcases acquired.before with names | zero
    · exact Int.lt_add_one_of_le (le_of_lt names.1)
    · rw [zero]
      exact Int.one_pos
  · rw [self]
  · rw [self]
    exact plain
  · rw [self]
    rcases origin with rfl | ⟨locked,number,_⟩
    · rfl
    · exact absurd ⟨locked.1,locked.2.1,number⟩ (fresh live ip)
  · rcases change with regular | live
    · rcases plain with same | zero
      · exact Or.inr (Or.inl ⟨unused,by rw [same]; exact regular⟩)
      · exact Or.inl (zero.trans unused.symm)
    · exact Or.inr (Or.inr (fresh live))


/-- The link count of a loaded inode is stored. -/
theorem Tidy.relink (tidy : Tidy tight st) (used : 0 < (st.icache ip).ref) (valid : (st.icache ip).valid = true)
    (nlink : BitVec 16) : Tidy tight (iupdate (st.setDinode ip { (st.icache ip).toDinode with nlink := nlink }) ip) ∧
      Lasting st (iupdate (st.setDinode ip { (st.icache ip).toDinode with nlink := nlink }) ip) ∧
      Firm st (iupdate (st.setDinode ip { (st.icache ip).toDinode with nlink := nlink }) ip) := by
  have ready := tidy.ready used valid
  have copy := ready.copy
  generalize changed : ({ (st.icache ip).toDinode with nlink := nlink } : Dinode) = d
  have after : (iupdate (st.setDinode ip d) ip).icache = (st.setDinode ip d).icache := (iupdate_io _ _).icache
  have self : (st.setDinode ip d).icache ip = { st.icache ip with toDinode := d } := FsState.setDinode_same _ _ _
  have stored := @iupdate_stored rootdev ip (st.setDinode ip d) (by rw [self]; exact ready.locked.2.1)
  rw [self] at stored
  have acquired : Acquired (st.icache ip).inum d ip st (iupdate (st.setDinode ip d) ip) := by
    refine ⟨ready.place,store_recorded ready.locked.2.1 rfl d,fun s away => ?_,fun s names => ?_,
      Or.inl ⟨used,ready.locked.2.1,rfl⟩,?_,?_,fun _ => ?_,stored⟩
    · rw [after,FsState.setDinode_other _ _ _ _ away]
    · exact tidy.unique s ip names.1 used (names.2.1.trans ready.locked.2.1.symm) names.2.2
    all_goals rw [after,self]
    exact ready.locked.2.1
  obtain ⟨tidy',lasting,_⟩ := tidy.acquired acquired (Or.inr (by rw [copy,← changed]; exact ⟨rfl,rfl,rfl⟩))
  refine ⟨tidy',lasting (Or.inl (by rw [copy,← changed])),?_⟩
  exact (setDinode_local st ip d).firm.trans (Firm.same after)

end tidy
end Lxos.Fs
