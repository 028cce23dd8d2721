import Lxos.Files.Creation

/-! Laws of the service. No request takes a name away or gives it to another inode, and no
inode in use becomes another one or shrinks. -/
namespace Lxos.Files
open Lxos.Bytes Lxos.Fs Lxos.Kernel Lxos.Places Lxos.Words

/-- Paths are strings. -/
def Request.Proper : Request → Prop
  | .open_ path _ => 0 ∉ path
  | .mknod path _ _ => 0 ∉ path
  | _ => True

namespace Service

/-- There are few inodes, each is free, a directory, a file or a device, and no directory is
open for writing. -/
structure Sound (s : Service) : Prop where
  few : s.ninodes ≤ 65536
  typed : ∀ i, (s.node i).type = 0 ∨ (s.node i).type = tDir ∨ (s.node i).type = tFile ∨ (s.node i).type = tDev
  writers : ∀ fd d, s.desc fd = some d → d.writable = true → (s.node d.inum).type ≠ tDir

/-- What can have become of a service. -/
structure Onward (s t : Service) : Prop where
  ninodes : t.ninodes = s.ninodes
  cwd : t.cwd = s.cwd
  kept : ∀ i, (s.node i).type ≠ 0 → ∃ data, t.node i = { s.node i with data := data } ∧ (s.node i).data.length ≤ data.length
  entry : ∀ i name n, (s.node i).entry name = some n → (t.node i).entry name = some n

end Service

section record
variable {v : Node} {data title name : List Byte} {n j : Nat}

@[simp] theorem cname_bytes (string : 0 ∉ title) (short : title.length ≤ dirsiz) : cname (bytes title) = title :=
  (cname_eq string fun _ _ => rfl).trans (List.take_of_length_le short)

theorem record_length (short : title.length ≤ dirsiz) : (record title n).length = 16 := by
  unfold record
  rw [List.length_cons,List.length_cons,List.length_append,List.length_replicate]
  change title.length ≤ 14 at short
  change title.length + (14 - title.length) + 1 + 1 = 16
  omega

theorem vacancy_le (data : List Byte) : vacancy data ≤ data.length / 16 := by
  unfold vacancy
  cases found : (List.range (data.length / 16)).find? fun j => (table (bytes data) j).isNone with
  | none => exact le_refl _
  | some j => exact Nat.le_of_lt (List.mem_range.mp (List.mem_of_find?_eq_some found))

theorem vacancy_free (inside : vacancy data < data.length / 16) : table (bytes data) (vacancy data) = none := by
  unfold vacancy at inside ⊢
  cases found : (List.range (data.length / 16)).find? fun j => (table (bytes data) j).isNone with
  | none =>
    rw [found] at inside
    exact absurd inside (lt_irrefl _)
  | some j =>
    have free := List.find?_some found
    exact Option.isNone_iff_eq_none.mp free

/-- A new entry is found, and the others are found as before. -/
theorem linked_entry (string : 0 ∉ title) (short : title.length ≤ dirsiz) (positive : 1 ≤ n) (width : n < 65536)
    (directory : v.type = tDir) (absent : v.entry title = none) (room : 16 * vacancy v.data + 16 ≤ 71680) :
    (v.linked title n).entry name = if name.take dirsiz = title then some n else v.entry name := by
  have low := vacancy_le v.data
  have within : 16 * vacancy v.data ≤ v.data.length := by omega
  have long : (overlay v.data (16 * vacancy v.data) (record title n)).length = max v.data.length (16 * vacancy v.data + 16) := by
    rw [overlay_length within,record_length short]
  have vacant : find (table (bytes v.data)) (v.data.length / 16) title = none := by
    unfold Node.entry at absent
    rw [if_pos directory,List.take_of_length_le short] at absent
    exact Option.map_eq_none_iff.mp absent
  have here : table (bytes (overlay v.data (16 * vacancy v.data) (record title n))) (vacancy v.data) = some (title,n) := by
    have named := cname_bytes string short
    rw [← named]
    refine table_written positive width fun i inside => ?_
    rw [bytes_overlay within,named,record_length short,if_pos (by omega),Nat.add_sub_cancel_left]
    have same := @taken_dirent (bytes title) n width
    rw [named] at same
    rw [← same]
    exact bytes_taken inside
  have other (j : Nat) (_ : j < v.data.length / 16) (away : j ≠ vacancy v.data) :
      table (bytes (overlay v.data (16 * vacancy v.data) (record title n))) j = table (bytes v.data) j := by
    refine table_congr fun i inside => ?_
    rw [bytes_overlay within,record_length short,if_neg (by omega)]
  have count : (overlay v.data (16 * vacancy v.data) (record title n)).length / 16 =
      max (v.data.length / 16) (vacancy v.data + 1) := by
    rw [long]
    omega
  have put := find_put (m := name.take dirsiz) vacant vacancy_free low count here other
  unfold Node.linked
  rw [if_pos room]
  unfold Node.entry
  dsimp only
  rw [if_pos directory,if_pos directory,put]
  split
  · rfl
  · rfl

theorem overlay_longer (data : List Byte) (off : Nat) (src : List Byte) : data.length ≤ (overlay data off src).length := by
  unfold overlay
  rw [List.length_append,List.length_append,List.length_take,List.length_drop]
  omega

theorem entry_directory (here : v.entry name = some n) : v.type = tDir := by
  unfold Node.entry at here
  split at here
  · assumption
  · cases here

theorem entry_none_of_type (other : v.type ≠ tDir) : v.entry name = none := if_neg other

end record

namespace Service
section onward
variable {s t u : Service} {i : Nat} {v : Node}

theorem Onward.refl (s : Service) : Onward s s := ⟨rfl,rfl,fun _ _ => ⟨_,rfl,le_refl _⟩,fun _ _ _ here => here⟩

theorem Onward.trans (first : Onward s t) (second : Onward t u) : Onward s u := by
  refine ⟨second.ninodes.trans first.ninodes,second.cwd.trans first.cwd,fun i used => ?_,fun i name n here =>
    second.entry i name n (first.entry i name n here)⟩
  obtain ⟨data,same,longer⟩ := first.kept i used
  obtain ⟨data',same',longer'⟩ := second.kept i (by rw [same]; exact used)
  rw [same] at same' longer'
  exact ⟨data',same',longer.trans longer'⟩

/-- A type once given stays. -/
theorem Onward.type (onward : Onward s t) (used : (s.node i).type ≠ 0) : (t.node i).type = (s.node i).type := by
  obtain ⟨data,same,_⟩ := onward.kept i used
  rw [same]

/-- A path that leads to an inode leads to it for ever. -/
theorem Onward.walk (onward : Onward s t) {path : List (List Byte)} {j : Nat} (here : s.walk i path = some j) :
    t.walk i path = some j := by
  unfold Service.walk at here ⊢
  induction path generalizing i with
  | nil => exact here
  | cons name path ih =>
    rw [List.foldlM_cons] at here ⊢
    obtain ⟨n,first,rest⟩ := Option.bind_eq_some_iff.mp here
    exact Option.bind_eq_some_iff.mpr ⟨n,onward.entry i name n first,ih rest⟩

theorem Onward.resolve (onward : Onward s t) {path : List Byte} {j : Nat} (here : s.resolve path = some j) :
    t.resolve path = some j := by
  have start : t.start path = s.start path := by
    unfold Service.start
    rw [onward.cwd]
  unfold Service.resolve at here ⊢
  rw [start]
  exact onward.walk here

theorem Onward.desc (onward : Onward s t) (d : Fin nofile → Option Desc) : Onward s { t with desc := d } :=
  ⟨onward.ninodes,onward.cwd,onward.kept,onward.entry⟩

/-- One node changes: it was free, or keeps its type and its entries and does not shrink. -/
theorem Onward.setNode (kept : (s.node i).type ≠ 0 → ∃ data, v = { s.node i with data := data } ∧ (s.node i).data.length ≤ data.length)
    (entry : ∀ name n, (s.node i).entry name = some n → v.entry name = some n) : Onward s (s.setNode i v) := by
  refine ⟨rfl,rfl,fun j used => ?_,fun j name n here => ?_⟩
  · change ∃ data, Function.update s.node i v j = _ ∧ _
    rcases eq_or_ne j i with rfl | away
    · rw [Function.update_self]
      exact kept used
    · rw [Function.update_of_ne away]
      exact ⟨_,rfl,le_refl _⟩
  · change (Function.update s.node i v j).entry name = some n
    rcases eq_or_ne j i with rfl | away
    · rw [Function.update_self]
      exact entry name n here
    · rw [Function.update_of_ne away]
      exact here

end onward
/-! What one request does. -/
section serve
variable {s t : Service} {i : Nat} {path title : List Byte} {type major minor : BitVec 16} {fd : Fin nofile} {d : Desc}

theorem Sound.setDesc (sound : Sound s) {o : Option Desc}
    (writer : ∀ d, o = some d → d.writable = true → (s.node d.inum).type ≠ tDir) : Sound (s.setDesc fd o) := by
  refine ⟨sound.few,sound.typed,fun fd' d' here writable => ?_⟩
  change Function.update s.desc fd o fd' = some d' at here
  rcases eq_or_ne fd' fd with rfl | away
  · rw [Function.update_self] at here
    exact writer d' here writable
  · rw [Function.update_of_ne away] at here
    exact sound.writers fd' d' here writable

theorem Sound.setNode (sound : Sound s) {v : Node} (type : v.type = (s.node i).type ∨ v.type = tFile ∨ v.type = tDev) :
    Sound (s.setNode i v) := by
  have self : (s.setNode i v).node i = v := Function.update_self _ _ _
  have other (j : Nat) (away : j ≠ i) : (s.setNode i v).node j = s.node j := Function.update_of_ne away _ _
  refine ⟨sound.few,fun j => ?_,fun fd d here writable => ?_⟩
  · rcases eq_or_ne j i with rfl | away
    · rw [self]
      rcases type with same | file | device
      · rw [same]
        exact sound.typed j
      · exact Or.inr (Or.inr (Or.inl file))
      · exact Or.inr (Or.inr (Or.inr device))
    · rw [other j away]
      exact sound.typed j
  · rcases eq_or_ne d.inum i with same | away
    · rw [same,self]
      rcases type with kept | file | device
      · rw [kept,← same]
        exact sound.writers fd d here writable
      · rw [file]
        decide
      · rw [device]
        decide
    · rw [other d.inum away]
      exact sound.writers fd d here writable

theorem describe_onward (sound : Sound s) {omode : Nat}
    (writer : omode.testBit 0 = true ∨ omode.testBit 1 = true → (s.node i).type ≠ tDir) :
    Sound (s.describe i omode).2 ∧ Onward s (s.describe i omode).2 := by
  unfold describe
  split
  · exact ⟨sound,Onward.refl s⟩
  · refine ⟨sound.setDesc fun d same writable => ?_,(Onward.refl s).desc _⟩
    obtain rfl := Option.some.inj same
    exact writer (Bool.or_eq_true_iff.mp writable)

theorem free_some (found : s.free = some i) : 1 ≤ i ∧ i < s.ninodes ∧ (s.node i).type = 0 := by
  have inside := List.mem_range.mp (List.mem_of_find?_eq_some found)
  have here := List.find?_some found
  obtain ⟨positive,zero⟩ := of_decide_eq_true here
  exact ⟨positive,inside,zero⟩

theorem parent_some {k : Nat} (string : 0 ∉ path) (found : s.parent path = some (k,title)) :
    (s.node k).type = tDir ∧ 0 ∉ title ∧ title.length ≤ dirsiz := by
  unfold parent at found
  split at found
  · cases found
  · rename_i last ends
    obtain ⟨k',here,same⟩ := Option.map_eq_some_iff.mp found
    obtain ⟨rfl,rfl⟩ := Prod.mk.inj same
    have directory := (Option.filter_eq_some_iff.mp here).2
    refine ⟨of_decide_eq_true directory,fun zero => ?_,List.length_take_le _ _⟩
    exact string (mem_of_mem_words (List.mem_of_getLast? ends) (List.mem_of_mem_take zero))

/-- A new inode, and an entry for it. -/
theorem create_onward (sound : Sound s) (string : 0 ∉ path) (regular : type = tFile ∨ type = tDev) {o : Option Nat}
    (ok : s.create path type major minor = .ok (o,t)) :
    Sound t ∧ Onward s t ∧ ∀ i, o = some i → (t.node i).type = tFile ∨ (t.node i).type = tDev := by
  unfold create at ok
  split at ok
  · obtain ⟨rfl,rfl⟩ := Prod.mk.inj (Except.ok.inj ok)
    exact ⟨sound,Onward.refl s,fun i wrong => by cases wrong⟩
  · rename_i k title found
    obtain ⟨directory,plain,short⟩ := parent_some string found
    split at ok
    · obtain ⟨rfl,rfl⟩ := Prod.mk.inj (Except.ok.inj ok)
      refine ⟨sound,Onward.refl s,fun i same => ?_⟩
      split at same
      · rename_i file
        obtain rfl := Option.some.inj same
        exact Or.inl file.2
      · cases same
    · rename_i absent
      split at ok
      · cases ok
      · rename_i i free
        obtain ⟨positive,inside,zero⟩ := free_some free
        obtain ⟨rfl,rfl⟩ := Prod.mk.inj (Except.ok.inj ok)
        have apart : k ≠ i := by
          rintro rfl
          rw [zero] at directory
          cases directory
        have made : Onward s (s.setNode i ⟨type,major,minor,1,[]⟩) :=
          Onward.setNode (fun used => absurd zero used) fun name n here => by
            rw [entry_directory here] at zero
            cases zero
        have same : (s.setNode i ⟨type,major,minor,1,[]⟩).node k = s.node k := Function.update_of_ne apart _ _
        have attrs : ∃ data, (s.node k).linked title i = { s.node k with data := data } ∧ (s.node k).data.length ≤ data.length := by
          unfold Node.linked
          split
          · exact ⟨_,rfl,overlay_longer _ _ _⟩
          · exact ⟨_,rfl,le_refl _⟩
        have linked : Onward (s.setNode i ⟨type,major,minor,1,[]⟩) ((s.setNode i ⟨type,major,minor,1,[]⟩).link k title i) := by
          unfold link
          rw [same]
          refine Onward.setNode (fun _ => by rw [same]; exact attrs) fun name n here => ?_
          rw [same] at here
          by_cases room : 16 * vacancy (s.node k).data + 16 ≤ 71680
          · rw [linked_entry plain short positive (inside.trans_le sound.few) directory absent room,if_neg]
            · exact here
            · intro title_is
              have gone : (s.node k).entry name = none := by
                have cut : (s.node k).entry name = (s.node k).entry title := by
                  unfold Node.entry
                  rw [title_is,List.take_of_length_le short]
                rw [cut,absent]
              rw [gone] at here
              cases here
          · unfold Node.linked
            rw [if_neg room]
            exact here
        have kind : ((s.node k).linked title i).type = (s.node k).type := by
          obtain ⟨data,form,_⟩ := attrs
          rw [form]
        refine ⟨(sound.setNode (Or.inr regular)).setNode (Or.inl ?_),made.trans linked,fun j same' => ?_⟩
        · rw [same]
          exact kind
        · obtain rfl := Option.some.inj same'
          have there : (((s.setNode i ⟨type,major,minor,1,[]⟩).link k title i).node i).type = type := by
            change (Function.update (Function.update s.node i ⟨type,major,minor,1,[]⟩) k _ i).type = type
            rw [Function.update_of_ne apart.symm,Function.update_self]
          rw [there]
          exact regular

theorem lookup_some {a : Nat} (found : s.lookup a = some (fd,d)) : s.desc fd = some d := by
  unfold lookup at found
  split at found
  · obtain ⟨d',here,same⟩ := Option.map_eq_some_iff.mp found
    obtain ⟨rfl,rfl⟩ := Prod.mk.inj same
    exact here
  · cases found

theorem open_onward (sound : Sound s) (string : 0 ∉ path) {omode : Nat} {r : Int} (ok : s.open_ path omode = .ok (r,t)) :
    Sound t ∧ Onward s t := by
  unfold open_ at ok
  split at ok
  · split at ok
    · cases ok
    · rename_i s1 made
      obtain ⟨rfl,rfl⟩ := Prod.mk.inj (Except.ok.inj ok)
      obtain ⟨sound1,onward,_⟩ := create_onward sound string (Or.inl rfl) made
      exact ⟨sound1,onward⟩
    · rename_i i s1 made
      obtain rfl := congrArg Prod.snd (Except.ok.inj ok)
      obtain ⟨sound1,onward,kind⟩ := create_onward sound string (Or.inl rfl) made
      have file : (s1.node i).type ≠ tDir := fun directory => by
        have kind := kind i rfl
        rw [directory] at kind
        exact absurd kind (by decide)
      have described := @describe_onward s1 i sound1 omode fun _ => file
      exact ⟨described.1,onward.trans described.2⟩
  · split at ok
    · obtain ⟨rfl,rfl⟩ := Prod.mk.inj (Except.ok.inj ok)
      exact ⟨sound,Onward.refl s⟩
    · split at ok
      · obtain ⟨rfl,rfl⟩ := Prod.mk.inj (Except.ok.inj ok)
        exact ⟨sound,Onward.refl s⟩
      · rename_i allowed
        obtain rfl := congrArg Prod.snd (Except.ok.inj ok)
        refine describe_onward sound fun writable directory => allowed ⟨directory,?_⟩
        rintro rfl
        rw [Nat.zero_testBit,Nat.zero_testBit] at writable
        exact absurd writable (by decide)

theorem mknod_onward (sound : Sound s) (string : 0 ∉ path) {major minor : Nat} {r : Int}
    (ok : s.mknod path major minor = .ok (r,t)) : Sound t ∧ Onward s t := by
  unfold mknod at ok
  split at ok
  · cases ok
  · rename_i s1 made
    obtain ⟨rfl,rfl⟩ := Prod.mk.inj (Except.ok.inj ok)
    obtain ⟨sound1,onward,_⟩ := create_onward sound string (Or.inr rfl) made
    exact ⟨sound1,onward⟩
  · rename_i i s1 made
    obtain ⟨rfl,rfl⟩ := Prod.mk.inj (Except.ok.inj ok)
    obtain ⟨sound1,onward,_⟩ := create_onward sound string (Or.inr rfl) made
    exact ⟨sound1,onward⟩

theorem read_onward (sound : Sound s) (a n : Nat) : Sound (s.read a n).2.2 ∧ Onward s (s.read a n).2.2 := by
  unfold read
  split
  · exact ⟨sound,Onward.refl s⟩
  · rename_i fd d found
    split
    · exact ⟨sound,Onward.refl s⟩
    · refine ⟨sound.setDesc fun d' same writable => ?_,(Onward.refl s).desc _⟩
      obtain rfl := Option.some.inj same
      exact sound.writers fd d (lookup_some found) writable

/-- A device has no bytes: at most the offset of its descriptor moves. -/
theorem writeDevice_cases (s : Service) (fd : Fin nofile) (d : Desc) (src : List Byte) : (s.writeDevice fd d src).2 = s ∨
    ∃ off, (s.writeDevice fd d src).2 = s.setDesc fd (some { d with off := off }) := by
  unfold writeDevice
  split
  · exact Or.inl rfl
  · split
    · exact Or.inr ⟨_,rfl⟩
    · exact Or.inl rfl

theorem write_onward (sound : Sound s) (a : Nat) (src : List Byte) : Sound (s.write a src).2 ∧ Onward s (s.write a src).2 := by
  unfold write
  split
  · exact ⟨sound,Onward.refl s⟩
  · rename_i fd d found
    split
    · exact ⟨sound,Onward.refl s⟩
    · rename_i allowed
      split
      · rcases writeDevice_cases s fd d src with same | ⟨off,same⟩
        · rw [same]
          exact ⟨sound,Onward.refl s⟩
        · rw [same]
          refine ⟨sound.setDesc fun d' same writable => ?_,(Onward.refl s).desc _⟩
          obtain rfl := Option.some.inj same
          exact sound.writers fd d (lookup_some found) writable
      · have regular := sound.writers fd d (lookup_some found) (Bool.not_eq_false _ ▸ allowed)
        have kept : Onward s (s.setNode d.inum { s.node d.inum with
            data := overlay (s.node d.inum).data d.off (fitting d.off src) }) :=
          Onward.setNode (fun _ => ⟨_,rfl,overlay_longer _ _ _⟩) fun name n here => absurd (entry_directory here) regular
        have written : Sound (s.setNode d.inum { s.node d.inum with
            data := overlay (s.node d.inum).data d.off (fitting d.off src) }) := sound.setNode (Or.inl rfl)
        refine ⟨written.setDesc fun d' same writable => ?_,kept.desc _⟩
        obtain rfl := Option.some.inj same
        change (Function.update s.node d.inum _ d.inum).type ≠ tDir
        rw [Function.update_self]
        exact regular

theorem close_onward (sound : Sound s) (a : Nat) : Sound (s.close a).2 ∧ Onward s (s.close a).2 := by
  unfold close
  split
  · exact ⟨sound,Onward.refl s⟩
  · exact ⟨sound.setDesc (fun d wrong => by cases wrong),(Onward.refl s).desc _⟩

/-- Every request keeps names, and the inodes in use. -/
theorem serve_onward (sound : Sound s) {q : Request} (proper : q.Proper) {a : Int × Output} (ok : s.serve q = .ok (a,t)) :
    Sound t ∧ Onward s t := by
  cases q with
  | refused =>
    obtain rfl := congrArg Prod.snd (Except.ok.inj ok)
    exact ⟨sound,Onward.refl s⟩
  | open_ path omode =>
    cases opened : s.open_ path omode with
    | error e =>
      rw [serve,opened] at ok
      cases ok
    | ok r =>
      rw [serve,opened] at ok
      obtain rfl := congrArg Prod.snd (Except.ok.inj ok)
      exact open_onward sound proper opened
  | mknod path major minor =>
    cases made : s.mknod path major minor with
    | error e =>
      rw [serve,made] at ok
      cases ok
    | ok r =>
      rw [serve,made] at ok
      obtain rfl := congrArg Prod.snd (Except.ok.inj ok)
      exact mknod_onward sound proper made
  | read fd n =>
    obtain rfl := congrArg Prod.snd (Except.ok.inj ok)
    exact read_onward sound fd n
  | write fd src =>
    obtain rfl := congrArg Prod.snd (Except.ok.inj ok)
    exact write_onward sound fd src
  | close fd =>
    obtain rfl := congrArg Prod.snd (Except.ok.inj ok)
    exact close_onward sound fd
  | fstat fd =>
    obtain rfl := congrArg Prod.snd (Except.ok.inj ok)
    exact ⟨sound,Onward.refl s⟩

end serve
end Service

end Lxos.Files
