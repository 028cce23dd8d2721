import Lxos.Fs.Stages

/-! Disks on which nothing is torn. Blocks that an inode has are marked and have one place, and
entries of directories are for inodes in use. A disk stays so while a file is written, with its
blocks stored one after the other and its dinode at last. -/
namespace Lxos.Fs
open Lxos.Bytes Lxos.Ownership

namespace Volume

/-- The inode is in use, and has links. -/
def Live (v : Volume) (n : Nat) : Prop := (v.inode n).type ≠ 0 ∧ (v.inode n).nlink ≠ 0

/-- Directory `k` has an entry for inode `n`. -/
def Leads (v : Volume) (k n : Nat) : Prop :=
  (v.inode k).type = tDir ∧ ∃ j name, 16 * j < (v.inode k).size.toNat ∧ Fs.table (v.byte k) j = some (name,n)

structure Intact (v : Volume) : Prop where
  sound : v.Sound
  leads : ∀ k n, v.Leads k n → (v.inode n).type ≠ 0

/-- Directories lead to inodes with links, and the root is one. -/
structure Linked (v : Volume) : Prop where
  root : v.Live rootino
  leads : ∀ k n, v.Leads k n → v.Live n

section intact
variable {v v' w : Volume} {k b c i n : Nat} {data : Block} {used : Nat → Prop}

theorem Intact.same (intact : Intact v) (sb : w.sb = v.sb) (inode : w.inode = v.inode) (ref : w.ref = v.ref)
    (byte : w.byte = v.byte) (marks : ∀ b < v.sb.size, v.marked b → w.marked b) : Intact w := by
  obtain ⟨⟨layout,reserved,range,held,exclusive⟩,leads⟩ := intact
  have room := layout.room
  refine ⟨⟨?_,?_,?_,?_,?_⟩,fun k n => ?_⟩
  · rw [sb]
    exact layout
  · rw [sb]
    exact fun b low => marks b (by omega) (reserved b low)
  · rw [ref,sb]
    exact range
  · rw [ref]
    exact fun p some => marks _ (range p some).2 (held p some)
  · rw [ref]
    exact exclusive
  · unfold Leads
    rw [inode,byte]
    exact leads k n

/-- A block that nobody owns may change. -/
theorem spare_ref (unowned : ∀ p, v.ref p ≠ b) : (v.setBlock b data).ref = v.ref :=
  ref_congr rfl (fun _ => rfl) fun k _ => Function.update_of_ne (unowned (k,140)) _ _

theorem spare_byte (layout : v.sb.Layout) (bound : b < v.sb.size) (unowned : ∀ p, v.ref p ≠ b) :
    (v.setBlock b data).byte = v.byte := by
  have width := layout.width
  funext j off
  unfold Volume.byte Volume.addr
  rw [spare_ref unowned]
  have apart : (if off / 512 < 140 then v.ref (j,off / 512) else 4294967295) ≠ b := by
    split
    · exact unowned _
    · omega
  rw [show (v.setBlock b data).block _ = v.block _ from Function.update_of_ne apart _ _]

theorem ofDisk_setBlock {sb : Superblock} {image : Nat → Block} (layout : sb.Layout) (high : sb.bmapstart ≤ c) (data : Block) :
    ofDisk sb ((ofDisk sb image).setBlock c data).block = (ofDisk sb image).setBlock c data := by
  unfold setBlock ofDisk
  dsimp only
  congr 1
  funext k
  split
  · rename_i inside
    have := (layout.iblock_range inside).2
    rw [Function.update_of_ne (by omega)]
  · rfl

theorem reserve_marked (layout : v.sb.Layout) (data : v.sb.nmeta ≤ b) (bound : b < v.sb.size) (h : c < v.sb.size) :
    (v.reserve b).marked c ↔ v.marked c ∨ c = b := by
  rw [← allocate_marked layout data bound h]
  have range := (layout.bblock_range h).2
  have same : (v.allocate b).block (v.sb.bblock c) = (v.reserve b).block (v.sb.bblock c) :=
    Function.update_of_ne (by omega) _ _
  exact (marked_congr (v := v.reserve b) (w := v.allocate b) rfl (congrFun same _)).symm

/-- Allocation to nobody. -/
theorem Intact.allots {sb : Superblock} : Allots sb fun image => Intact (ofDisk sb image) := by
  have reserved {image : Nat → Block} {b : Nat} (intact : Intact (ofDisk sb image)) (bound : b < sb.size)
      (free : ¬(ofDisk sb image).marked b) : Intact ((ofDisk sb image).reserve b) := by
    have layout : sb.Layout := intact.sound.layout
    have low := (layout.bblock_range bound).2
    exact intact.same rfl rfl (meta_ref intact.sound low) (meta_byte intact.sound low) fun c inside old =>
      (reserve_marked layout (data_of_free intact.sound free) bound inside).mpr (Or.inl old)
  have stored {image : Nat → Block} {b : Nat} (layout : sb.Layout) (bound : b < sb.size) :
      ofDisk sb ((ofDisk sb image).reserve b).block = (ofDisk sb image).reserve b :=
    ofDisk_setBlock layout (layout.bblock_range bound).1 _
  refine ⟨fun image b intact bound free => ?_,fun image b intact bound free => ?_⟩
  · rw [stored intact.sound.layout bound]
    exact reserved intact bound free
  · have layout : sb.Layout := intact.sound.layout
    have low : sb.nmeta ≤ b := data_of_free intact.sound free
    have first := reserved intact bound free
    have data : sb.bmapstart ≤ b := by
      rw [Superblock.nmeta_eq] at low
      omega
    have unowned (p : Nat × Nat) : ((ofDisk sb image).reserve b).ref p ≠ b := by
      have ref : ((ofDisk sb image).reserve b).ref = (ofDisk sb image).ref := meta_ref intact.sound (layout.bblock_range bound).2
      rw [ref]
      intro here
      have some : b ≠ 0 := by
        have := @nmeta_positive sb
        omega
      exact free (here ▸ intact.sound.held p (by rw [here]; exact some))
    have cleared : (ofDisk sb image).allocate b = (ofDisk sb ((ofDisk sb image).reserve b).block).setBlock b zeros := by
      rw [stored layout bound]
      rfl
    rw [cleared,ofDisk_setBlock layout data,stored layout bound]
    refine first.same rfl rfl (spare_ref unowned) (spare_byte layout bound unowned) fun c inside old => ?_
    have range := (layout.bblock_range inside).2
    have block : (((ofDisk sb image).reserve b).setBlock b zeros).block (sb.bblock c) = ((ofDisk sb image).reserve b).block (sb.bblock c) :=
      Function.update_of_ne (by omega) _ _
    exact (marked_congr (v := (ofDisk sb image).reserve b) (w := ((ofDisk sb image).reserve b).setBlock b zeros) rfl
      (congrFun block _)).mpr old

/-- Blocks as in `v'`, and inodes still as in `v`: an inode has the blocks that it had already, and no others than in `v'`. -/
theorem lag_ref {used used' : Nat → Prop} (frame : Frame used used' k v v') (p : Nat × Nat) :
    (({ v' with inode := v.inode } : Volume).ref p ≠ 0 → ({ v' with inode := v.inode } : Volume).ref p = v'.ref p) ∧
      (v.ref p ≠ 0 → ({ v' with inode := v.inode } : Volume).ref p = v'.ref p) := by
  obtain ⟨j,i⟩ := p
  rcases ne_or_eq j k with away | rfl
  · have same : ({ v' with inode := v.inode } : Volume).ref (j,i) = v'.ref (j,i) := by
      unfold ref
      dsimp only
      rw [frame.other j away]
    exact ⟨fun _ => same,fun _ => same⟩
  by_cases place : j < v.sb.slots
  · have place' : j < v'.sb.slots := by
      rw [frame.sb]
      exact place
    have addr (m : Nat) (low : m < 13) (some : (v.inode j).addr m ≠ 0) : (v'.inode j).addr m = (v.inode j).addr m := by
      rcases Nat.lt_succ_iff_lt_or_eq.mp low with direct | rfl
      · have kept := frame.keep (j,m)
        rw [ref_direct v place direct,ref_direct v' place' direct] at kept
        exact kept some
      · have kept := frame.keep (j,140)
        rw [ref_indirect v place,ref_indirect v' place'] at kept
        exact kept some
    have lag : ({ v' with inode := v.inode } : Volume).ref (j,i) = (v.inode j).refAt v'.block i := if_pos place'
    have after : v'.ref (j,i) = (v'.inode j).refAt v'.block i := if_pos place'
    have before : v.ref (j,i) = (v.inode j).refAt v.block i := if_pos place
    rw [lag,after,before]
    unfold Dinode.refAt
    by_cases direct : i < 12
    · simp only [direct,if_true]
      exact ⟨fun some => (addr i (by omega) some).symm,fun some => (addr i (by omega) some).symm⟩
    · by_cases none : (v.inode j).addr 12 = 0
      · simp only [direct,if_false,none,if_true,ite_self]
        exact ⟨fun some => absurd rfl some,fun some => absurd rfl some⟩
      · rw [addr 12 (by decide) none,if_neg direct,if_neg direct]
        exact ⟨fun _ => rfl,fun _ => rfl⟩
  · have lag : ({ v' with inode := v.inode } : Volume).ref (j,i) = 0 := by
      refine if_neg ?_
      dsimp only
      rw [frame.sb]
      exact place
    exact ⟨fun some => absurd lag some,fun some => absurd (if_neg place) some⟩

/-- Inode `k` is being written. The disk has it as it was. -/
theorem Intact.lag {tight : Prop} {used used' : Nat → Prop} (tidy : Tidy tight v) (linked : v.Linked) (sound : v'.Sound)
    (frame : Frame used used' k v v')
    (leads : (v.inode k).type = tDir → ∀ i name n, 16 * i < (v.inode k).size.toNat →
      Fs.table (v'.byte k) i = some (name,n) → v.Live n) : Intact { v' with inode := v.inode } := by
  have sub (p : Nat × Nat) := (lag_ref frame p).1
  have kept (p : Nat × Nat) := (lag_ref frame p).2
  obtain ⟨layout,reserved,range,held,exclusive⟩ := sound
  refine ⟨⟨layout,reserved,fun p some => ?_,fun p some => ?_,fun p q some same => ?_⟩,?_⟩
  · have here := sub p some
    rw [here] at some ⊢
    exact range p some
  · have here := sub p some
    rw [here] at some ⊢
    exact held p some
  · have here := sub p some
    have there := sub q (same ▸ some)
    rw [here] at some same
    rw [there] at same
    exact exclusive p q some same
  · rintro j n ⟨directory,i,name,low,entry⟩
    have directory : (v.inode j).type = tDir := directory
    have low : 16 * i < (v.inode j).size.toNat := low
    obtain ⟨c,whole⟩ := (tidy.listing j directory).whole
    have filled : v.Filled j := by
      refine tidy.filled j ?_ fun _ => ?_
      all_goals
        rw [directory]
        decide
    have bytes : Fs.table (({ v' with inode := v.inode } : Volume).byte j) i = Fs.table (v'.byte j) i := by
      refine table_congr fun o small => ?_
      obtain ⟨index,some⟩ := filled ((16 * i + o) / 512) (by omega)
      unfold Volume.byte Volume.addr
      rw [if_pos index,if_pos index,kept _ some]
    rw [bytes] at entry
    rcases ne_or_eq j k with away | rfl
    · rw [frame.byte j away] at entry
      exact (linked.leads j n ⟨directory,i,name,low,entry⟩).1
    · exact (leads directory i name n low entry).1

theorem Linked.frame {used used' : Nat → Prop} (linked : v.Linked) (frame : Frame used used' k v w)
    (leads : (v.inode k).type = tDir → ∀ i name n, 16 * i < (w.inode k).size.toNat →
      Fs.table (w.byte k) i = some (name,n) → v.Live n) : w.Linked := by
  have live (n : Nat) (old : v.Live n) : w.Live n := by
    unfold Live
    rw [(frame.kind n).1,(frame.kind n).2]
    exact old
  refine ⟨live _ linked.root,?_⟩
  rintro j n ⟨directory,i,name,low,entry⟩
  rw [(frame.kind j).1] at directory
  rcases ne_or_eq j k with away | rfl
  · rw [frame.byte j away] at entry
    rw [frame.other j away] at low
    exact live n (linked.leads j n ⟨directory,i,name,low,entry⟩)
  · exact live n (leads directory i name n low entry)

/-- An entry was written, or not yet. -/
theorem table_patched {byte byte' : Nat → Byte} {title : Buffer} {name : List Byte} {j t m : Nat} (width : n < 65536)
    (place : t = 0 ∨ t = 16)
    (patched : ∀ o, byte' o = if 16 * i ≤ o ∧ o < 16 * i + t then direntBytes title n (o - 16 * i) else byte o)
    (entry : Fs.table byte' j = some (name,m)) :
    if t = 16 ∧ j = i then m = n else Fs.table byte j = some (name,m) := by
  split
  · rename_i here
    obtain ⟨rfl,rfl⟩ := here
    have same : le16 (entryAt byte' j) 0 = le16 (direntBytes title n) 0 := le16_congr fun o low => by
      have there : entryAt byte' j o = byte' (16 * j + o) := rfl
      rw [Nat.zero_add,there,patched,if_pos (by omega),Nat.add_sub_cancel_left]
    rw [table_number entry,same]
    exact direntBytes_number title width
  · rename_i away
    have old : Fs.table byte' j = Fs.table byte j := table_congr fun o low => by
      rw [patched,if_neg]
      rintro ⟨above,below⟩
      exact away (by omega)
    rw [← old]
    exact entry

/-- Dinode `k` is stored anew. It was free and becomes empty, or it keeps its blocks and gets links. -/
theorem Linked.store {tight : Prop} {d : Dinode} (tidy : Tidy tight v) (linked : v.Linked) (low : c < v.sb.bmapstart)
    (content : d.size = 0 ∧ d.addrs = (fun _ => 0) ∧ (v.inode k).type = 0 ∨
      d.size = (v.inode k).size ∧ d.addrs = (v.inode k).addrs ∧ d.type = (v.inode k).type ∧ d.nlink ≠ 0) :
    ((v.setInode k d).setBlock c data).Linked := by
  have self : ((v.setInode k d).setBlock c data).inode k = d := Function.update_self _ _ _
  have shrunk : Shrunk k v ((v.setInode k d).setBlock c data) :=
    store_shrunk low (content.symm.imp (fun h => h.2.1) fun h => h.2.1)
  have live (n : Nat) (old : v.Live n) : ((v.setInode k d).setBlock c data).Live n := by
    unfold Live
    rcases ne_or_eq n k with away | rfl
    · rw [shrunk.other n away]
      exact old
    · rw [self]
      rcases content with ⟨_,_,unused⟩ | ⟨_,_,type,links⟩
      · exact absurd unused old.1
      · rw [type]
        exact ⟨old.1,links⟩
  refine ⟨live _ linked.root,?_⟩
  rintro j n ⟨directory,i,name,inside,entry⟩
  rcases ne_or_eq j k with away | rfl
  · rw [shrunk.other j away] at directory inside
    rw [shrunk.byte tidy.sound away] at entry
    exact live n (linked.leads j n ⟨directory,i,name,inside,entry⟩)
  · rw [self] at directory inside
    rcases content with ⟨empty,_,_⟩ | ⟨size,addrs,type,_⟩
    · rw [empty] at inside
      exact absurd inside (Nat.not_lt_zero _)
    · have byte : ((v.setInode j d).setBlock c data).byte = v.byte :=
        (table_byte (setInode_owned tidy.sound addrs) low).trans (setInode_byte addrs)
      rw [byte] at entry
      rw [type] at directory
      rw [size] at inside
      exact live n (linked.leads j n ⟨directory,i,name,inside,entry⟩)

end intact
end Volume
end Lxos.Fs
