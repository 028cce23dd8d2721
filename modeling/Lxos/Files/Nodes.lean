import Lxos.Files.Service
import Lxos.Fs.Resolve
import Lxos.Fs.Overlay
import Lxos.Kernel.Tended

/-! The nodes that a volume stands for, and what the operations of `fs.c` do to them. A
read changes none, a write changes the data of one, and a new inode is one node more. -/
namespace Lxos.Files
open Lxos.Bytes Lxos.Fs Lxos.Kernel Lxos.Places

/-- Inode `i` with its bytes, wherever they are stored. -/
def node (v : Volume) (i : Nat) : Node where
  type := (v.inode i).type
  major := (v.inode i).major
  minor := (v.inode i).minor
  nlink := (v.inode i).nlink
  data := (List.range (v.inode i).size.toNat).map (v.byte i)

/-- The bytes of a buffer as a list. -/
def taken (src : Buffer) (n : Nat) : List Byte := (List.range n).map src

section data
variable {data src : List Byte} {off n o : Nat} {b : Buffer}

@[simp] theorem taken_length : (taken b n).length = n := by
  rw [taken,List.length_map,List.length_range]

theorem taken_take {m : Nat} (less : m ≤ n) : (taken b n).take m = taken b m := by
  unfold taken
  rw [← List.map_take,List.take_range,min_eq_left less]

theorem bytes_taken (inside : o < n) : bytes (taken b n) o = b o := by
  unfold bytes taken
  rw [List.getD_eq_getElem _ _ (by simpa using inside)]
  simp

theorem bytes_lt (inside : o < data.length) : bytes data o = data[o] := List.getD_eq_getElem _ _ inside

theorem data_ext {data' : List Byte} (length : data'.length = data.length)
    (same : ∀ o < data.length, bytes data' o = bytes data o) : data' = data := by
  refine List.ext_getElem length fun o low high => ?_
  rw [← bytes_lt low,← bytes_lt high]
  exact same o high

theorem taken_bytes : taken (bytes data) data.length = data :=
  data_ext taken_length fun o inside => bytes_taken inside

theorem overlay_length (within : off ≤ data.length) : (overlay data off src).length = max data.length (off + src.length) := by
  unfold overlay
  rw [List.length_append,List.length_append,List.length_take,List.length_drop]
  omega

theorem bytes_overlay (within : off ≤ data.length) : bytes (overlay data off src) o =
    if off ≤ o ∧ o < off + src.length then bytes src (o - off) else bytes data o := by
  unfold bytes overlay
  have front : (data.take off).length = off := by
    rw [List.length_take]
    omega
  by_cases before : o < off
  · rw [if_neg (by omega),List.append_assoc,List.getD_append _ _ _ _ (by omega)]
    simp only [List.getD_eq_getElem?_getD,List.getElem?_take,if_pos before]
  · by_cases inside : o < off + src.length
    · rw [if_pos (by omega),List.append_assoc,List.getD_append_right _ _ _ _ (by omega),front,
        List.getD_append _ _ _ _ (by omega)]
    · rw [if_neg (by omega),List.getD_append_right _ _ _ _ (by rw [List.length_append]; omega),List.length_append,front]
      simp only [List.getD_eq_getElem?_getD,List.getElem?_drop]
      congr 2
      omega

theorem part_length (data : List Byte) (off n : Nat) : ((data.drop off).take n).length = min n (data.length - off) := by
  rw [List.length_take,List.length_drop]

theorem bytes_part (inside : o < n) : bytes ((data.drop off).take n) o = bytes data (off + o) := by
  unfold bytes
  simp only [List.getD_eq_getElem?_getD,List.getElem?_take,if_pos inside,List.getElem?_drop]

@[simp] theorem overlay_nil : overlay data off [] = data := by
  unfold overlay
  rw [List.append_nil,List.length_nil,Nat.add_zero,List.take_append_drop]

end data

section node
variable {v w : Volume} {i j k off n : Nat} {src : Buffer}

@[simp] theorem node_length : (node v i).data.length = (v.inode i).size.toNat := taken_length

theorem node_byte {o : Nat} (inside : o < (v.inode i).size.toNat) : bytes (node v i).data o = v.byte i o :=
  bytes_taken inside

theorem node_congr (inode : ∃ addrs, w.inode i = { v.inode i with addrs := addrs }) (byte : w.byte i = v.byte i) :
    node w i = node v i := by
  obtain ⟨addrs,same⟩ := inode
  unfold node
  rw [same,byte]

/-- The directory entries are those of the bytes. -/
theorem node_table (inside : j < (v.inode i).size.toNat / 16) : table (bytes (node v i).data) j = table (v.byte i) j :=
  table_congr fun o low => node_byte (by omega)

theorem node_entry (v : Volume) (i : Nat) (name : List Byte) : (node v i).entry name = v.entry i name := by
  unfold Node.entry Volume.entry
  rw [node_length]
  have same : find (table (bytes (node v i).data)) ((v.inode i).size.toNat / 16) (name.take dirsiz) =
      find (table (v.byte i)) ((v.inode i).size.toNat / 16) (name.take dirsiz) :=
    find_congr fun j low => node_table low
  rw [same]
  rfl

/-- A write into the file: its data is overlaid, its attributes stay. -/
theorem node_patched (attrs : ∃ addrs size, w.inode k = { v.inode k with addrs := addrs,size := size })
    (size : (w.inode k).size.toNat = max (v.inode k).size.toNat (off + n))
    (byte : ∀ o, w.byte k o = if off ≤ o ∧ o < off + n then src (o - off) else v.byte k o)
    (within : off ≤ (v.inode k).size.toNat) :
    node w k = { node v k with data := overlay (node v k).data off (taken src n) } := by
  obtain ⟨addrs,length,same⟩ := attrs
  have start : off ≤ (node v k).data.length := by
    rw [node_length]
    exact within
  have data : (node w k).data = overlay (node v k).data off (taken src n) := by
    refine data_ext ?_ fun o inside => ?_
    · rw [overlay_length start,node_length,node_length,taken_length,size]
    · rw [overlay_length start,node_length,taken_length] at inside
      rw [node_byte (by rw [size]; exact inside),byte,bytes_overlay start,taken_length]
      split
      · exact (bytes_taken (by omega)).symm
      · exact (node_byte (by omega)).symm
  ext1
  · change (w.inode k).type = (v.inode k).type
    rw [same]
  · change (w.inode k).major = (v.inode k).major
    rw [same]
  · change (w.inode k).minor = (v.inode k).minor
    rw [same]
  · change (w.inode k).nlink = (v.inode k).nlink
    rw [same]
  · exact data

end node

section changes
variable {strict : Prop} {loose : Nat → Prop} {st st' : FsState} {ip dp : Slot} {k off n : Nat} {src : Buffer}

/-- The nodes of the root device. -/
def nodes (st : FsState) : Nat → Node := node (st.volume rootdev)

theorem nodes_congr (volume : st'.volume rootdev = st.volume rootdev) : nodes st' = nodes st := by
  unfold nodes
  rw [volume]

theorem nodes_seen (seen : Seen rootdev ip st st') : nodes st' = nodes st := by
  funext i
  refine node_congr ?_ (congrFun seen.grown.byte i)
  rcases eq_or_ne i (st.icache ip).inum with rfl | away
  · exact seen.grown.attrs
  · exact ⟨_,seen.grown.frame.other i away⟩

theorem nodes_overlaid (laid : Overlaid rootdev ip src off n st st')
    (within : off ≤ ((st.volume rootdev).inode (st.icache ip).inum).size.toNat) :
    nodes st' = Function.update (nodes st) (st.icache ip).inum { nodes st (st.icache ip).inum with
      data := overlay (nodes st (st.icache ip).inum).data off (taken src n) } := by
  funext i
  rcases eq_or_ne i (st.icache ip).inum with rfl | away
  · rw [Function.update_self]
    exact node_patched laid.attrs laid.size laid.byte within
  · rw [Function.update_of_ne away]
    exact node_congr ⟨_,(laid.other i away).1⟩ (laid.other i away).2

/-- A new inode is a node without data, and the others are as before. -/
theorem nodes_made {d : Dinode} (made : Made k d ip st st') (lawful : Lawful strict loose st) (size : d.size = 0)
    (addrs : ∀ i, d.addrs i = 0) : nodes st' = Function.update (nodes st) k ⟨d.type,d.major,d.minor,d.nlink,[]⟩ := by
  have layout : st.sb.Layout := lawful.volume.sound.layout
  have volume := made.acquired.volume layout lawful.unique
  have low := (layout.iblock_range made.place).2
  have empty : d.addrs = ((st.volume rootdev).inode k).addrs := by
    rw [lawful.volume.unused k made.unused]
    exact funext addrs
  have byte : (st'.volume rootdev).byte = (st.volume rootdev).byte := by
    rw [volume]
    exact (Volume.table_byte (Volume.setInode_owned lawful.volume.sound empty) low).trans (Volume.setInode_byte empty)
  funext i
  rcases eq_or_ne i k with rfl | away
  · have self : (st'.volume rootdev).inode i = d := by
      rw [volume]
      exact Function.update_self _ _ _
    rw [Function.update_self]
    unfold nodes node
    rw [self,size]
    rfl
  · rw [Function.update_of_ne away]
    have same : (st'.volume rootdev).inode i = (st.volume rootdev).inode i := by
      rw [volume]
      exact Function.update_of_ne away _ _
    exact node_congr ⟨_,same⟩ (congrFun byte i)

end changes

end Lxos.Files
