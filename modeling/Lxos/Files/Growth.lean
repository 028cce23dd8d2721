import Lxos.Files.Laws
import Mathlib.Data.Finset.Card
import Mathlib.Data.Finset.Range

/-! What a new name needs, and what a file keeps. Each new inode takes one entry, so that with
few inodes a directory never reaches its largest size; and a file that nothing is written to
stays as it is. -/
namespace Lxos.Files
open Lxos.Bytes Lxos.Fs Lxos.Kernel Lxos.Places

/-- The request does not write to inode `i`. -/
def Request.Spares (s : Service) (i : Nat) : Request → Prop
  | .write fd _ => ∀ a, s.lookup fd = some a → a.2.inum ≠ i
  | _ => True

namespace Service

/-- The inodes that can still be taken. -/
def spare (s : Service) : Nat := ((Finset.range s.ninodes).filter fun i => 1 ≤ i ∧ (s.node i).type = 0).card

/-- Every directory has room for entries of all inodes that are left. -/
def Roomy (s : Service) : Prop := ∀ d, (s.node d).type = tDir → (s.node d).data.length + 16 * s.spare ≤ 71664

section nodes
variable {s t : Service} {i d : Nat} {path title : List Byte} {type major minor : BitVec 16} {q : Request} {a : Int × Output}

/-- What a creation does: nothing, or a new inode and an entry for it. -/
theorem create_cases {o : Option Nat} (ok : s.create path type major minor = .ok (o,t)) :
    (t = s ∧ (o = none ∨ ∃ i d title, o = some i ∧ s.parent path = some (d,title) ∧ (s.node d).entry title = some i ∧
      type = tFile ∧ (s.node i).type = tFile)) ∨
    ∃ d title i, s.parent path = some (d,title) ∧ (s.node d).entry title = none ∧ s.free = some i ∧ o = some i ∧
      t = (s.setNode i ⟨type,major,minor,1,[]⟩).link d title i := by
  unfold create at ok
  split at ok
  · obtain ⟨rfl,rfl⟩ := Prod.mk.inj (Except.ok.inj ok)
    exact Or.inl ⟨rfl,Or.inl rfl⟩
  · rename_i d title found
    split at ok
    · rename_i i here
      obtain ⟨same,rfl⟩ := Prod.mk.inj (Except.ok.inj ok)
      refine Or.inl ⟨rfl,?_⟩
      split at same
      · rename_i file
        exact Or.inr ⟨i,d,title,same.symm,found,here,file⟩
      · exact Or.inl same.symm
    · rename_i absent
      split at ok
      · cases ok
      · rename_i i free
        obtain ⟨rfl,rfl⟩ := Prod.mk.inj (Except.ok.inj ok)
        exact Or.inr ⟨d,title,i,found,absent,free,rfl,rfl⟩

/-- Nodes that a new inode and its entry do not concern. -/
theorem create_other {o : Option Nat} (string : 0 ∉ path) (ok : s.create path type major minor = .ok (o,t))
    (used : (s.node i).type ≠ 0) (regular : (s.node i).type ≠ tDir) : t.node i = s.node i := by
  rcases create_cases ok with ⟨rfl,_⟩ | ⟨d,title,j,found,_,free,_,rfl⟩
  · rfl
  · have directory := (parent_some string found).1
    have zero := (free_some free).2.2
    have away : i ≠ d := by
      rintro rfl
      exact regular directory
    have apart : i ≠ j := by
      rintro rfl
      exact used zero
    change Function.update (Function.update s.node j ⟨type,major,minor,1,[]⟩) d _ i = _
    rw [Function.update_of_ne away,Function.update_of_ne apart]

theorem describe_node (s : Service) (i omode : Nat) : (s.describe i omode).2.node = s.node := by
  unfold describe
  split
  · rfl
  · rfl

/-- The nodes after an `open` are those after the creation, if there is one. -/
theorem open_nodes {omode : Nat} {r : Int} (ok : s.open_ path omode = .ok (r,t)) :
    t.node = s.node ∨ ∃ o u, s.create path tFile 0 0 = .ok (o,u) ∧ t.node = u.node := by
  unfold open_ at ok
  split at ok
  · split at ok
    · cases ok
    · rename_i u made
      obtain ⟨rfl,rfl⟩ := Prod.mk.inj (Except.ok.inj ok)
      exact Or.inr ⟨none,_,made,rfl⟩
    · rename_i i u made
      obtain rfl := congrArg Prod.snd (Except.ok.inj ok)
      exact Or.inr ⟨some i,u,made,describe_node u i omode⟩
  · split at ok
    · obtain rfl := congrArg Prod.snd (Except.ok.inj ok)
      exact Or.inl rfl
    · split at ok
      · obtain rfl := congrArg Prod.snd (Except.ok.inj ok)
        exact Or.inl rfl
      · obtain rfl := congrArg Prod.snd (Except.ok.inj ok)
        exact Or.inl (describe_node s _ omode)

theorem mknod_nodes {major minor : Nat} {r : Int} (ok : s.mknod path major minor = .ok (r,t)) :
    ∃ o, s.create path tDev (BitVec.ofNat 16 major) (BitVec.ofNat 16 minor) = .ok (o,t) := by
  unfold mknod at ok
  split at ok
  · cases ok
  · rename_i u made
    obtain ⟨rfl,rfl⟩ := Prod.mk.inj (Except.ok.inj ok)
    exact ⟨none,made⟩
  · rename_i i u made
    obtain ⟨rfl,rfl⟩ := Prod.mk.inj (Except.ok.inj ok)
    exact ⟨some i,made⟩

theorem read_node (s : Service) (fd n : Nat) : (s.read fd n).2.2.node = s.node := by
  unfold read
  split
  · rfl
  · split
    · rfl
    · rfl

theorem close_node (s : Service) (fd : Nat) : (s.close fd).2.node = s.node := by
  unfold close
  split
  · rfl
  · rfl

theorem write_nodes (s : Service) (a : Nat) (src : List Byte) : (s.write a src).2.node = s.node ∨
    ∃ fd d data, s.lookup a = some (fd,d) ∧ d.writable = true ∧ (s.node d.inum).type ≠ tDev ∧
      (s.write a src).2.node = Function.update s.node d.inum { s.node d.inum with data := data } := by
  unfold write
  split
  · exact Or.inl rfl
  · rename_i fd d found
    split
    · exact Or.inl rfl
    · rename_i allowed
      split
      · rcases writeDevice_cases s fd d src with same | ⟨off,same⟩
        · rw [same]
          exact Or.inl rfl
        · rw [same]
          exact Or.inl rfl
      · rename_i regular
        exact Or.inr ⟨fd,d,_,found,Bool.not_eq_false _ ▸ allowed,regular,rfl⟩

/-- A file or a device that is not written to stays as it is. -/
theorem serve_spares (proper : q.Proper) (spares : q.Spares s i) (used : (s.node i).type ≠ 0)
    (regular : (s.node i).type ≠ tDir) (ok : s.serve q = .ok (a,t)) : t.node i = s.node i := by
  cases q with
  | refused =>
    obtain rfl := congrArg Prod.snd (Except.ok.inj ok)
    rfl
  | open_ path omode =>
    cases opened : s.open_ path omode with
    | error e =>
      rw [serve,opened] at ok
      cases ok
    | ok r =>
      rw [serve,opened] at ok
      obtain rfl := congrArg Prod.snd (Except.ok.inj ok)
      rcases open_nodes opened with same | ⟨o,u,made,same⟩
      · exact congrFun same i
      · exact (congrFun same i).trans (create_other proper made used regular)
  | mknod path major minor =>
    cases opened : s.mknod path major minor with
    | error e =>
      rw [serve,opened] at ok
      cases ok
    | ok r =>
      rw [serve,opened] at ok
      obtain rfl := congrArg Prod.snd (Except.ok.inj ok)
      obtain ⟨o,made⟩ := mknod_nodes opened
      exact create_other proper made used regular
  | read fd n =>
    obtain rfl := congrArg Prod.snd (Except.ok.inj ok)
    exact congrFun (read_node s fd n) i
  | write fd src =>
    obtain rfl := congrArg Prod.snd (Except.ok.inj ok)
    rcases write_nodes s fd src with same | ⟨fd',d,data,found,_,_,same⟩
    · exact congrFun same i
    · have away : i ≠ d.inum := (spares _ found).symm
      exact (congrFun same i).trans (Function.update_of_ne away _ _)
  | close fd =>
    obtain rfl := congrArg Prod.snd (Except.ok.inj ok)
    exact congrFun (close_node s fd) i
  | fstat fd =>
    obtain rfl := congrArg Prod.snd (Except.ok.inj ok)
    rfl

theorem spare_congr (ninodes : t.ninodes = s.ninodes) (type : ∀ j, (t.node j).type = 0 ↔ (s.node j).type = 0) : t.spare = s.spare := by
  unfold spare
  rw [ninodes]
  congr 1
  refine Finset.filter_congr fun j _ => ?_
  rw [type]

/-- A new inode is one less to take. -/
theorem spare_taken {v : Node} (free : s.free = some i) (some_type : v.type ≠ 0) : (s.setNode i v).spare + 1 = s.spare := by
  obtain ⟨positive,inside,zero⟩ := free_some free
  have member : i ∈ (Finset.range s.ninodes).filter fun j => 1 ≤ j ∧ (s.node j).type = 0 :=
    Finset.mem_filter.mpr ⟨Finset.mem_range.mpr inside,positive,zero⟩
  have rest : ((Finset.range s.ninodes).filter fun j => 1 ≤ j ∧ ((s.setNode i v).node j).type = 0) =
      ((Finset.range s.ninodes).filter fun j => 1 ≤ j ∧ (s.node j).type = 0).erase i := by
    ext j
    rw [Finset.mem_erase,Finset.mem_filter,Finset.mem_filter]
    change _ ∧ 1 ≤ j ∧ (Function.update s.node i v j).type = 0 ↔ _
    rcases eq_or_ne j i with rfl | away
    · rw [Function.update_self]
      exact iff_of_false (fun h => some_type h.2.2) fun h => h.1 rfl
    · rw [Function.update_of_ne away]
      exact ⟨fun h => ⟨away,h⟩,fun h => h.2⟩
  unfold spare
  change ((Finset.range s.ninodes).filter fun j => 1 ≤ j ∧ ((s.setNode i v).node j).type = 0).card + 1 = _
  rw [rest,Finset.card_erase_of_mem member]
  exact Nat.succ_pred_eq_of_pos (Finset.card_pos.mpr ⟨i,member⟩)

theorem Roomy.congr (roomy : Roomy s) (ninodes : t.ninodes = s.ninodes) (node : t.node = s.node) : Roomy t := by
  intro d directory
  rw [spare_congr ninodes fun j => by rw [node]]
  rw [node] at directory ⊢
  exact roomy d directory

theorem linked_length {v : Node} {n : Nat} (short : title.length ≤ dirsiz) : (v.linked title n).data.length ≤ v.data.length + 16 := by
  have low := vacancy_le v.data
  unfold Node.linked
  split
  · change (overlay v.data (16 * vacancy v.data) (record title n)).length ≤ _
    rw [overlay_length (by omega),record_length short]
    omega
  · exact Nat.le_add_right _ _

@[simp] theorem linked_type {v : Node} {n : Nat} : (v.linked title n).type = v.type := by
  unfold Node.linked
  split
  · rfl
  · rfl

theorem create_roomy (roomy : Roomy s) (string : 0 ∉ path) (some_type : type ≠ 0) (regular : type ≠ tDir) {o : Option Nat}
    (ok : s.create path type major minor = .ok (o,t)) : Roomy t := by
  rcases create_cases ok with ⟨rfl,_⟩ | ⟨d,title,i,found,_,free,_,rfl⟩
  · exact roomy
  · obtain ⟨directory,_,short⟩ := parent_some string found
    obtain ⟨_,_,zero⟩ := free_some free
    have apart : d ≠ i := by
      rintro rfl
      rw [zero] at directory
      cases directory
    have taken := spare_taken (v := ⟨type,major,minor,1,[]⟩) free some_type
    have here : (s.setNode i ⟨type,major,minor,1,[]⟩).node d = s.node d := Function.update_of_ne apart _ _
    have same : ((s.setNode i ⟨type,major,minor,1,[]⟩).link d title i).spare = (s.setNode i ⟨type,major,minor,1,[]⟩).spare := by
      refine spare_congr rfl fun j => ?_
      change (Function.update (s.setNode i ⟨type,major,minor,1,[]⟩).node d _ j).type = 0 ↔ _
      rcases eq_or_ne j d with rfl | away
      · rw [Function.update_self,linked_type]
      · rw [Function.update_of_ne away]
    intro j kind
    rw [same]
    change (Function.update (s.setNode i ⟨type,major,minor,1,[]⟩).node d _ j).type = tDir at kind
    change (Function.update (s.setNode i ⟨type,major,minor,1,[]⟩).node d _ j).data.length + _ ≤ _
    rcases eq_or_ne j d with rfl | away
    · rw [Function.update_self,here]
      have longer := @linked_length title (s.node j) i short
      have room := roomy j directory
      omega
    · rw [Function.update_of_ne away] at kind ⊢
      change (Function.update s.node i _ j).type = tDir at kind
      change (Function.update s.node i _ j).data.length + _ ≤ _
      rcases eq_or_ne j i with rfl | other
      · rw [Function.update_self] at kind
        exact absurd kind regular
      · rw [Function.update_of_ne other] at kind ⊢
        have room := roomy j kind
        omega

/-- No request takes the room for the entries away. -/
theorem serve_roomy (sound : Sound s) (roomy : Roomy s) (proper : q.Proper) (ok : s.serve q = .ok (a,t)) : Roomy t := by
  have onward := (serve_onward sound proper ok).2
  cases q with
  | refused =>
    obtain rfl := congrArg Prod.snd (Except.ok.inj ok)
    exact roomy
  | open_ path omode =>
    cases opened : s.open_ path omode with
    | error e =>
      rw [serve,opened] at ok
      cases ok
    | ok r =>
      rw [serve,opened] at ok
      obtain rfl := congrArg Prod.snd (Except.ok.inj ok)
      rcases open_nodes opened with same | ⟨o,u,made,same⟩
      · exact roomy.congr onward.ninodes same
      · have first := create_onward sound proper (Or.inl rfl) made
        refine (create_roomy roomy proper (by decide) (by decide) made).congr ?_ same
        exact onward.ninodes.trans first.2.1.ninodes.symm
  | mknod path major minor =>
    cases opened : s.mknod path major minor with
    | error e =>
      rw [serve,opened] at ok
      cases ok
    | ok r =>
      rw [serve,opened] at ok
      obtain rfl := congrArg Prod.snd (Except.ok.inj ok)
      obtain ⟨o,made⟩ := mknod_nodes opened
      exact create_roomy roomy proper (by decide) (by decide) made
  | read fd n =>
    obtain rfl := congrArg Prod.snd (Except.ok.inj ok)
    exact roomy.congr onward.ninodes (read_node s fd n)
  | write fd src =>
    obtain rfl := congrArg Prod.snd (Except.ok.inj ok)
    rcases write_nodes s fd src with same | ⟨fd',d,data,found,writable,_,same⟩
    · exact roomy.congr onward.ninodes same
    · have regular := sound.writers fd' d (lookup_some found) writable
      have other (j : Nat) (away : j ≠ d.inum) : (s.write fd src).2.node j = s.node j :=
        (congrFun same j).trans (Function.update_of_ne away _ _)
      have here : ((s.write fd src).2.node d.inum).type = (s.node d.inum).type := by
        rw [same,Function.update_self]
      have spare : (s.write fd src).2.spare = s.spare := by
        refine spare_congr onward.ninodes fun j => ?_
        rcases eq_or_ne j d.inum with rfl | away
        · rw [here]
        · rw [other j away]
      intro j directory
      have away : j ≠ d.inum := by
        rintro rfl
        rw [here] at directory
        exact regular directory
      rw [other j away] at directory ⊢
      rw [spare]
      exact roomy j directory
  | close fd =>
    obtain rfl := congrArg Prod.snd (Except.ok.inj ok)
    exact roomy.congr onward.ninodes (close_node s fd)
  | fstat fd =>
    obtain rfl := congrArg Prod.snd (Except.ok.inj ok)
    exact roomy

end nodes

/-! Paths of the inodes that were opened. -/
section paths
variable {s t : Service} {i d : Nat} {path title : List Byte} {type major minor : BitVec 16} {q : Request} {a : Int × Output}

theorem Onward.parent (onward : Onward s t) (found : s.parent path = some (d,title)) : t.parent path = some (d,title) := by
  have start : t.start path = s.start path := by
    unfold Service.start
    rw [onward.cwd]
  unfold Service.parent at found ⊢
  split at found
  · cases found
  · rename_i last ends
    obtain ⟨d',here,same⟩ := Option.map_eq_some_iff.mp found
    obtain ⟨front,directory⟩ := Option.filter_eq_some_iff.mp here
    have directory : (s.node d').type = tDir := of_decide_eq_true directory
    have kind : (t.node d').type = tDir := by
      rw [onward.type (by rw [directory]; decide)]
      exact directory
    refine Option.map_eq_some_iff.mpr ⟨d',Option.filter_eq_some_iff.mpr ⟨?_,decide_eq_true kind⟩,same⟩
    rw [start]
    exact onward.walk front

end paths
end Service

end Lxos.Files
