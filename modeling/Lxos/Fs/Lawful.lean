import Lxos.Fs.Entries
import Lxos.Fs.Coherent
import Lxos.Fs.Truncate
import Lxos.Fs.Uncut

/-! What every operation but truncation keeps. An inode in use has a link, so that its
last reference may go; directories name inodes in use, each of them once if `strict`; and
a dinode on the disk is as its copy, but for the inodes in `loose`, which may have holes
and are never given up. -/
namespace Lxos.Fs
open Lxos.Bytes Lxos.Places

namespace Volume

/-- Directory `k` has whole entries for inodes in use, `.` and `..` among them; if `strict`, with different names. -/
structure Listing (strict : Prop) (v : Volume) (k : Nat) : Prop where
  whole : 16 ∣ (v.inode k).size.toNat
  named : ∀ j name n, 16 * j < (v.inode k).size.toNat → table (v.byte k) j = some (name,n) → (v.inode n).type ≠ 0
  distinct : strict → ∀ i j name m n, 16 * i < (v.inode k).size.toNat → 16 * j < (v.inode k).size.toNat →
    table (v.byte k) i = some (name,m) → table (v.byte k) j = some (name,n) → i = j
  dots : ∀ name ∈ ([[46],[46,46]] : List (List Byte)), ∃ j n, 16 * j < (v.inode k).size.toNat ∧
    table (v.byte k) j = some (name,n)

structure Lawful (strict : Prop) (loose : Nat → Prop) (v : Volume) : Prop where
  sound : v.Sound
  narrow : v.sb.slots ≤ 65536
  within : ∀ k, (v.inode k).type ≠ 0 → k < v.sb.slots
  small : ∀ k, (v.inode k).size.toNat ≤ 71680
  filled : ∀ k, ¬loose k → v.Filled k
  directory : ∀ k, loose k → (v.inode k).type = tDir
  linked : ∀ k, (v.inode k).type ≠ 0 → (v.inode k).nlink ≠ 0
  unused : ∀ k, (v.inode k).type = 0 → v.inode k = Dinode.zero
  listing : ∀ k, (v.inode k).type = tDir → Listing strict v k
  root : (v.inode rootino).type ≠ 0

/-- No inode in use is lost or becomes shorter. -/
structure Evolves (v w : Volume) : Prop where
  sb : w.sb = v.sb
  type : ∀ k, (v.inode k).type ≠ 0 → (w.inode k).type = (v.inode k).type
  size : ∀ k, (v.inode k).type ≠ 0 → (v.inode k).size.toNat ≤ (w.inode k).size.toNat

section lawful
variable {strict : Prop} {loose used used' : Nat → Prop} {v w x : Volume} {k j : Nat}

theorem Evolves.refl (v : Volume) : Evolves v v := ⟨rfl,fun _ _ => rfl,fun _ _ => le_refl _⟩

theorem Evolves.trans (first : Evolves v w) (second : Evolves w x) : Evolves v x := by
  refine ⟨second.sb.trans first.sb,fun k some => ?_,fun k some => ?_⟩
  · rw [second.type k (by rw [first.type k some]; exact some),first.type k some]
  · exact (first.size k some).trans (second.size k (by rw [first.type k some]; exact some))

theorem Frame.kind (frame : Frame used used' k v w) (j : Nat) : (w.inode j).type = (v.inode j).type ∧
    (w.inode j).nlink = (v.inode j).nlink := by
  rcases eq_or_ne j k with rfl | away
  · obtain ⟨addrs,size,same⟩ := frame.attrs
    rw [same]
    exact ⟨rfl,rfl⟩
  · rw [frame.other j away]
    exact ⟨rfl,rfl⟩

theorem Listing.kept (listing : Listing strict v k) (size : (w.inode k).size = (v.inode k).size) (byte : w.byte k = v.byte k)
    (type : ∀ n, (v.inode n).type ≠ 0 → (w.inode n).type ≠ 0) : Listing strict w k := by
  refine ⟨?_,?_,?_,?_⟩
  all_goals rw [size]
  · exact listing.whole
  all_goals rw [byte]
  · exact fun j name n inside here => type n (listing.named j name n inside here)
  · exact listing.distinct
  · exact listing.dots

theorem Frame.evolves (frame : Frame used used' k v w) (grows : (v.inode k).size.toNat ≤ (w.inode k).size.toNat) :
    Evolves v w := by
  refine ⟨frame.sb,fun j _ => (frame.kind j).1,fun j _ => ?_⟩
  rcases eq_or_ne j k with rfl | away
  · exact grows
  · rw [frame.other j away]

/-- A change of inode `k` that is in use. -/
theorem Lawful.frame (lawful : Lawful strict loose v) (frame : Frame used used' k v w) (sound : w.Sound)
    (in_use : (v.inode k).type ≠ 0) (small : (w.inode k).size.toNat ≤ 71680) (filled : ¬loose k → w.Filled k)
    (listing : (v.inode k).type = tDir → Listing strict w k) : Lawful strict loose w := by
  refine ⟨sound,?_,fun j => ?_,fun j => ?_,fun j tight => ?_,fun j => ?_,fun j => ?_,fun j => ?_,fun j => ?_,?_⟩
  · rw [frame.sb]
    exact lawful.narrow
  · rw [(frame.kind j).1,frame.sb]
    exact lawful.within j
  · rcases eq_or_ne j k with rfl | away
    · exact small
    · rw [frame.other j away]
      exact lawful.small j
  · rcases eq_or_ne j k with rfl | away
    · exact filled tight
    · intro bn
      rw [frame.other j away,frame.foreign (j,bn) away]
      exact lawful.filled j tight bn
  · rw [(frame.kind j).1]
    exact lawful.directory j
  · rw [(frame.kind j).1,(frame.kind j).2]
    exact lawful.linked j
  · rw [(frame.kind j).1]
    intro zero
    have away : j ≠ k := fun same => in_use (same ▸ zero)
    rw [frame.other j away]
    exact lawful.unused j zero
  · rw [(frame.kind j).1]
    intro directory
    rcases eq_or_ne j k with rfl | away
    · exact listing directory
    · refine (lawful.listing j directory).kept (by rw [frame.other j away]) (frame.byte j away) fun n => ?_
      rw [(frame.kind n).1]
      exact id
  · rw [(frame.kind rootino).1]
    exact lawful.root

theorem Listing.put (listing : Listing strict v k) {name : Buffer} {i n : Nat} (place : 16 * i ≤ (v.inode k).size.toNat)
    (free : 16 * i < (v.inode k).size.toNat → le16 (entryAt (v.byte k) i) 0 = 0)
    (absent : ∀ l, 16 * l < (v.inode k).size.toNat → ¬Matches (v.byte k) name l) (some_number : 1 ≤ n) (width : n < 65536)
    (size : (w.inode k).size.toNat = max (v.inode k).size.toNat (16 * i + 16))
    (byte : ∀ o, w.byte k o = if 16 * i ≤ o ∧ o < 16 * i + 16 then direntBytes name n (o - 16 * i) else v.byte k o)
    (in_use : (w.inode n).type ≠ 0) (type : ∀ n, (v.inode n).type ≠ 0 → (w.inode n).type ≠ 0) : Listing strict w k := by
  obtain ⟨c,whole⟩ := listing.whole
  have new : table (w.byte k) i = some (cname name,n) := table_written some_number width fun o low => by
    rw [byte,if_pos (by omega),Nat.add_sub_cancel_left]
  have old {j : Nat} (away : j ≠ i) : table (w.byte k) j = table (v.byte k) j := table_congr fun o low => by
    rw [byte,if_neg (by omega)]
  have inside {j : Nat} (away : j ≠ i) (low : 16 * j < (w.inode k).size.toNat) : 16 * j < (v.inode k).size.toNat := by
    rw [size] at low
    omega
  have other {j : Nat} {m : Nat} (away : j ≠ i) (low : 16 * j < (w.inode k).size.toNat) :
      table (w.byte k) j ≠ some (cname name,m) := by
    intro here
    rw [old away] at here
    exact absent j (inside away low) (matches_iff.mpr ⟨m,here⟩)
  refine ⟨?_,fun j title m low here => ?_,fun alone j l title m m' low low' here here' => ?_,fun title dot => ?_⟩
  · rw [size]
    omega
  · rcases eq_or_ne j i with rfl | away
    · obtain ⟨_,rfl⟩ := Prod.mk.inj (Option.some.inj (new.symm.trans here))
      exact in_use
    · rw [old away] at here
      exact type m (listing.named j title m (inside away low) here)
  · rcases eq_or_ne j i with rfl | away
    · obtain ⟨rfl,_⟩ := Prod.mk.inj (Option.some.inj (new.symm.trans here))
      rcases eq_or_ne l j with rfl | away'
      · rfl
      · exact absurd here' (other away' low')
    · rcases eq_or_ne l i with rfl | away'
      · obtain ⟨rfl,_⟩ := Prod.mk.inj (Option.some.inj (new.symm.trans here'))
        exact absurd here (other away low)
      · rw [old away] at here
        rw [old away'] at here'
        exact listing.distinct alone j l title m m' (inside away low) (inside away' low') here here'
  · obtain ⟨j,m,low,here⟩ := listing.dots title dot
    have away : j ≠ i := by
      rintro rfl
      rw [table_free (free low)] at here
      cases here
    refine ⟨j,m,?_,?_⟩
    · rw [size]
      omega
    · rw [old away]
      exact here

end lawful
end Volume

/-- The kernel runs on such a volume, and whatever it refers to is in use. -/
structure Lawful (strict : Prop) (loose : Nat → Prop) (st : FsState) : Prop where
  volume : (st.volume rootdev).Lawful strict loose
  unique : st.Unique
  held : ∀ s, 0 < (st.icache s).ref → (st.icache s).dev = rootdev ∧
    ((st.volume rootdev).inode (st.icache s).inum).type ≠ 0
  saved : ∀ s, st.Locked rootdev s → ¬loose (st.icache s).inum →
    (st.icache s).toDinode = st.table rootdev (st.icache s).inum
  stored : ∀ k, loose k → (st.table rootdev k).type ≠ 0

section lawful
variable {strict : Prop} {loose : Nat → Prop} {st st' : FsState} {ip dp s : Slot} {k n off : Nat} {src : Buffer}

theorem Lawful.named (lawful : Lawful strict loose st) (used : 0 < (st.icache ip).ref) : Named rootdev ip st :=
  ⟨lawful.unique,used,(lawful.held ip used).1,lawful.volume.within _ (lawful.held ip used).2⟩

theorem Lawful.ready (lawful : Lawful strict loose st) (used : 0 < (st.icache ip).ref) (valid : (st.icache ip).valid = true) :
    Ready rootdev ip st :=
  ⟨lawful.unique,⟨used,(lawful.held ip used).1,valid⟩,(lawful.named used).place,lawful.volume.sound⟩

theorem Ready.copy {dev : Nat} (ready : Ready dev ip st) :
    (st.volume dev).inode (st.icache ip).inum = (st.icache ip).toDinode :=
  FsState.volume_locked ready.unique ready.locked ready.place

theorem Lawful.scan (lawful : Lawful strict loose st) (ready : Ready rootdev dp st) (type : (st.icache dp).type = tDir) :
    Scan rootdev dp st := by
  have copy := ready.copy
  refine ⟨ready,type,?_,?_⟩
  · rw [← copy]
    exact (lawful.volume.listing _ (by rw [copy]; exact type)).whole
  · rw [← copy]
    exact lawful.volume.small _

theorem Lawful.idle (lawful : Lawful strict loose st) (idle : Idle st st') : Lawful strict loose st' := by
  obtain ⟨disk,sb,icache,stack,trace⟩ := st
  obtain ⟨disk',sb',icache',stack',trace'⟩ := st'
  obtain ⟨rfl,rfl,rfl,_,_,_,_⟩ := idle
  exact ⟨lawful.volume,lawful.unique,lawful.held,lawful.saved,lawful.stored⟩

theorem framed_table {used used' : Nat → Prop} (layout : st.sb.Layout) (place : k < st.sb.slots)
    (frame : Volume.Frame used used' k (st.volume rootdev) (st'.volume rootdev)) {j : Nat} (inside : j < st.sb.slots)
    (away : j ≠ k) : st'.table rootdev j = st.table rootdev j := by
  have sb : st'.sb = st.sb := frame.sb
  unfold FsState.table
  rw [sb]
  refine Dinode.decode_congr fun i small => frame.table _ (layout.iblock_range inside).2 _ fun here => ?_
  have apart := layout.inode_disjoint place inside away.symm here.1.symm
  obtain ⟨_,low,high⟩ := here
  change k % 8 * 64 ≤ j % 8 * 64 + i at low
  change j % 8 * 64 + i < k % 8 * 64 + 64 at high
  omega

theorem Lawful.inside (lawful : Lawful strict loose st) {k : Nat} (here : loose k) : k < st.sb.slots := by
  refine lawful.volume.within k ?_
  rw [lawful.volume.directory k here]
  decide

theorem Lawful.framed (lawful : Lawful strict loose st) (ready : Ready rootdev ip st) (change : Local ip st st')
    (frame : Volume.Frame (st.volume rootdev).marked (st'.volume rootdev).marked (st.icache ip).inum
      (st.volume rootdev) (st'.volume rootdev))
    (volume : (st'.volume rootdev).Lawful strict loose) (saved : ¬loose (st.icache ip).inum →
      (st'.icache ip).toDinode = st'.table rootdev (st.icache ip).inum)
    (stored : loose (st.icache ip).inum → (st'.table rootdev (st.icache ip).inum).type ≠ 0) : Lawful strict loose st' := by
  refine ⟨volume,change.unique lawful.unique,fun s used => ?_,fun s locked tight => ?_,fun k here => ?_⟩
  · rw [change.ref] at used
    rw [change.dev,change.inum,(frame.kind _).1]
    exact lawful.held s used
  · rcases eq_or_ne s ip with rfl | away
    · rw [change.inum] at tight ⊢
      exact saved tight
    · have same := change.other s away
      unfold FsState.Locked at locked
      rw [same] at locked tight ⊢
      have other : (st.icache s).inum ≠ (st.icache ip).inum := fun number =>
        away (lawful.unique s ip locked.1 ready.locked.1 (locked.2.1.trans ready.locked.2.1.symm) number)
      rw [lawful.saved s locked tight,
        framed_table ready.sound.layout ready.place frame (lawful.named locked.1).place other]
  · rcases eq_or_ne k (st.icache ip).inum with rfl | other
    · exact stored here
    · rw [framed_table ready.sound.layout ready.place frame (lawful.inside here) other]
      exact lawful.stored k here

theorem Seen.lawful (seen : Seen rootdev ip st st') (lawful : Lawful strict loose st) (ready : Ready rootdev ip st) :
    Lawful strict loose st' ∧ (st.volume rootdev).Evolves (st'.volume rootdev) := by
  have in_use := (lawful.held ip ready.locked.1).2
  by_cases tight : loose (st.icache ip).inum
  · obtain ⟨addrs,same⟩ := seen.grown.attrs
    have frame := seen.grown.frame
    have size : ((st'.volume rootdev).inode (st.icache ip).inum).size = ((st.volume rootdev).inode (st.icache ip).inum).size := by
      rw [same]
    refine ⟨lawful.framed ready seen.grown.change frame (lawful.volume.frame frame seen.grown.sound in_use ?_
      (fun h => absurd tight h) fun directory => ?_) (fun h => absurd tight h) fun here => ?_,frame.evolves (by rw [size])⟩
    · rw [size]
      exact lawful.volume.small _
    · refine (lawful.volume.listing _ directory).kept size (congrFun seen.grown.byte _) fun n => ?_
      rw [(frame.kind n).1]
      exact id
    · have sb : st'.sb = st.sb := frame.sb
      have table : st'.table rootdev (st.icache ip).inum = st.table rootdev (st.icache ip).inum := by
        have block := seen.grown.table (st.sb.iblock (st.icache ip).inum) (ready.sound.layout.iblock_range ready.place).2
        unfold FsState.table
        rw [sb,block]
      rw [table]
      exact lawful.stored _ here
  · have idle := seen.idle (lawful.volume.filled _ tight)
    refine ⟨lawful.idle idle,?_⟩
    rw [idle.volume]
    exact Volume.Evolves.refl _

theorem Wrote.lawful (wrote : Wrote rootdev ip src off n st st') (lawful : Lawful strict loose st) (ready : Ready rootdev ip st)
    (room : off + n ≤ 71680) (regular : (st.icache ip).type ≠ tDir) :
    Lawful strict loose st' ∧ (st.volume rootdev).Evolves (st'.volume rootdev) := by
  have in_use := (lawful.held ip ready.locked.1).2
  have small := lawful.volume.small (st.icache ip).inum
  have copy := ready.copy
  have tight : ¬loose (st.icache ip).inum := fun here => regular (by rw [← copy]; exact lawful.volume.directory _ here)
  refine ⟨lawful.framed ready wrote.change wrote.frame (lawful.volume.frame wrote.frame wrote.sound in_use ?_
    (fun _ => wrote.filled) fun directory => ?_) (fun _ => ?_) fun here => absurd here tight,wrote.frame.evolves ?_⟩
  · rw [wrote.size]
    exact max_le small room
  · rw [copy] at directory
    exact absurd directory regular
  · exact (wrote.saved (lawful.saved ip ready.locked tight).symm).symm
  · rw [wrote.size]
    exact le_max_left _ _

theorem Got.lawful (got : Got rootdev k ip st st') (lawful : Lawful strict loose st)
    (in_use : ((st.volume rootdev).inode k).type ≠ 0) : Lawful strict loose st' := by
  have volume := got.volume lawful.unique rootdev
  have table (j : Nat) : st'.table rootdev j = st.table rootdev j := by
    unfold FsState.table
    rw [got.sb,got.disk]
  refine ⟨by rw [volume]; exact lawful.volume,got.unique lawful.unique,fun s used => ?_,fun s locked tight => ?_,fun j here => ?_⟩
  · rw [volume]
    rcases eq_or_ne s ip with rfl | away
    · rw [got.inum]
      exact ⟨got.device,in_use⟩
    · rw [got.other s away] at used ⊢
      exact lawful.held s used
  · have before := (got.locked rootdev s).mp locked
    obtain ⟨copy,number⟩ := got.copy before
    rw [table,copy]
    rw [number] at tight ⊢
    exact lawful.saved s before tight
  · rw [table]
    exact lawful.stored j here

theorem Loaded.lawful (loaded : Loaded rootdev ip st st') (named : Named rootdev ip st) (lawful : Lawful strict loose st) :
    Lawful strict loose st' := by
  have volume := loaded.volume named
  have table (j : Nat) : st'.table rootdev j = st.table rootdev j := by
    unfold FsState.table
    rw [loaded.sb,loaded.disk]
  refine ⟨by rw [volume]; exact lawful.volume,loaded.unique named,fun s used => ?_,fun s locked tight => ?_,fun j here => ?_⟩
  · rw [volume]
    rcases eq_or_ne s ip with rfl | away
    · rw [loaded.self] at used ⊢
      exact lawful.held s used
    · rw [loaded.other s away] at used ⊢
      exact lawful.held s used
  · rw [table]
    rcases eq_or_ne s ip with rfl | away
    · rw [loaded.self] at tight ⊢
      dsimp only at tight ⊢
      split
      · rename_i valid
        exact lawful.saved s ⟨named.ref,named.dev,valid⟩ tight
      · rfl
    · have same := loaded.other s away
      unfold FsState.Locked at locked
      rw [same] at locked tight ⊢
      exact lawful.saved s locked tight
  · rw [table]
    exact lawful.stored j here

end lawful

end Lxos.Fs
