import Lxos.Files.Nodes

/-! Paths in the kernel and in the service. A walk leaves all nodes as they are, even where
it gives a block to a hole of a directory, and comes to the inode that the nodes say. -/
namespace Lxos.Files
open Lxos.Bytes Lxos.Fs Lxos.Kernel Lxos.Outcome Lxos.Places

/-- The handles are tended, and no file changed since `origin`. -/
structure Quiet (strict : Prop) (loose : Nat → Prop) (marks : List (Slot × Nat)) (origin : FsState)
    (hs : List Handle) (st : FsState) : Prop where
  tended : Tended strict loose marks origin hs st
  same : st.exhausted = false → nodes st = nodes origin

section quiet
variable {strict : Prop} {loose : Nat → Prop} {marks : List (Slot × Nat)} {origin : FsState} {hs hs' : List Handle}
  {st st' : FsState} {ip dp : Slot} {m : Mode}

theorem Quiet.step (quiet : Quiet strict loose marks origin hs st) (tended : Tended strict loose marks origin hs' st')
    (trace : st.trace <:+ st'.trace)
    (same : st'.exhausted = false → Orderly strict loose marks origin hs st → nodes st' = nodes st) :
    Quiet strict loose marks origin hs' st' := by
  refine ⟨tended,fun enough => ?_⟩
  have before := exhausted_of_suffix trace enough
  exact (same enough (quiet.tended.kept before)).trans (quiet.same before)

theorem Quiet.ready (quiet : Quiet strict loose marks origin hs st) (enough : st.exhausted = false) (member : (ip,m) ∈ hs)
    (valid : (st.icache ip).valid = true) : Ready rootdev ip st :=
  (quiet.tended.kept enough).lawful.ready (quiet.tended.counted.used member) valid

/-- A name looked up in a loaded directory. -/
theorem entry_looked {name : Buffer} {elem : List Byte} (scan : Scan rootdev dp st)
    {r : Option (Slot × Nat) × FsState} (ok : dirlookup st dp name = .ok r) (enough : r.2.exhausted = false)
    (title : cname name = elem.take dirsiz) :
    (st.volume rootdev).entry (st.icache dp).inum elem = r.1.map fun s => (r.2.icache s.1).inum := by
  have copy := scan.ready.copy
  have directory : ((st.volume rootdev).inode (st.icache dp).inum).type = tDir := by
    rw [copy]
    exact scan.type
  have looked := dirlookup_looked scan ok (Or.inr enough)
  obtain ⟨c,whole⟩ := scan.whole
  unfold Volume.entry
  rw [if_pos directory,← title,copy]
  match r, looked with
  | (none,st'), looked =>
    obtain ⟨_,absent⟩ := looked
    have missing : find (table ((st.volume rootdev).byte (st.icache dp).inum)) ((st.icache dp).size.toNat / 16)
        (cname name) = none :=
      find_none.mpr fun l low w here => absent l (Nat.zero_le l) (by omega) (matches_iff.mpr ⟨w,here⟩)
    rw [missing]
    rfl
  | (some (ip,off),st'), looked =>
    obtain ⟨st1,i,_,inside,_,same,first,got⟩ := looked
    obtain ⟨n,here⟩ := matches_iff.mp same
    rw [← table_number here] at got
    have found : find (table ((st.volume rootdev).byte (st.icache dp).inum)) ((st.icache dp).size.toNat / 16)
        (cname name) = some (n,i) :=
      find_some.mpr ⟨by omega,here,fun l low w there => first l (Nat.zero_le l) low (matches_iff.mpr ⟨w,there⟩)⟩
    rw [found]
    exact congrArg some (iget_got got).inum.symm

theorem Quiet.unlockput_eq (quiet : Quiet strict loose marks origin ((ip,m) :: hs) st) (enough : st.exhausted = false) :
    iunlockput st ip = st.setInode ip { st.icache ip with ref := (st.icache ip).ref - 1 } := by
  have used : 0 < (st.icache ip).ref := quiet.tended.counted.used List.mem_cons_self
  have unlocked : iunlock st ip = st := if_neg (by omega)
  unfold iunlockput
  rw [unlocked]
  exact (quiet.tended.kept enough).lawful.iput_eq used

/-- The rules for calls that read. -/
theorem quiet_reader (origin : FsState) (bound : ∀ n, loose n → ∃ s, (s,n) ∈ marks) :
    Reader (Quiet strict loose marks origin) := by
  have guard := @tended_guard strict loose marks origin bound
  constructor
  · exact fun quiet same => quiet.step (quiet.tended.perm same) (List.suffix_refl _) fun _ _ => rfl
  · exact fun m quiet blocks inodes =>
      quiet.step (quiet.tended.print blocks inodes) (List.suffix_cons _ _) fun _ _ => rfl
  · intro hs st quiet room
    refine (Held.iget quiet.tended.counted (by rw [List.length_map]; exact room) rootdev rootino).mono fun r got => ?_
    refine quiet.step (quiet.tended.got got.2 got.1 fun lawful => lawful.volume.root) (by rw [got.1.trace]) fun _ before => ?_
    exact nodes_congr (got.1.volume before.lawful.unique rootdev)
  · intro hs st ip m quiet member
    have used := quiet.tended.counted.used member
    exact quiet.step (quiet.tended.dup member) (List.suffix_refl _) fun _ before => nodes_congr (before.lawful.idup used).1
  · intro hs st ip m quiet member
    have used := quiet.tended.counted.used member
    refine quiet.step (quiet.tended.lock member) (ilock_calm st ip).trace fun _ before => ?_
    exact nodes_congr ((ilock_loaded (before.lawful.named used)).volume (before.lawful.named used))
  · intro hs st ip quiet
    have used : 0 < (st.icache ip).ref := quiet.tended.counted.used List.mem_cons_self
    refine quiet.step (quiet.tended.put bound) (iput_trace st ip) fun _ before => ?_
    exact nodes_congr (before.lawful.iput used (quiet.tended.stays bound before)).1
  · intro hs st ip m dst off n quiet member valid width
    refine quiet.step (quiet.tended.read member valid dst off width) (readi_mapped st ip dst off n).toLocal.calm.trace
      fun enough before => ?_
    exact nodes_seen (readi_seen (before.lawful.ready (quiet.tended.counted.used member) valid) dst off width (Or.inr enough)).1
  · intro hs st dp m name quiet room member dir
    have looked := quiet.tended.lookup room member dir name
    cases looking : dirlookup st dp name with
    | error e =>
      rw [looking] at looked
      exact looked
    | ok r =>
      have trace := trace_since ((dirlookup_nests st dp name).elim looking)
      replace looked := looked.elim looking
      have scan (before : Orderly strict loose marks origin hs st) : Scan rootdev dp st :=
        before.lawful.scan (before.lawful.ready (quiet.tended.counted.used member) dir.1) dir.2
      obtain ⟨_ | ⟨ip,off⟩,st1⟩ := r
      · refine ⟨quiet.step looked.1 trace fun enough before => ?_,looked.2⟩
        exact nodes_seen (dirlookup_looked (scan before) looking (Or.inr enough)).1
      · refine quiet.step looked trace fun enough before => ?_
        obtain ⟨st0,i,seen,_,_,_,_,got⟩ := dirlookup_looked (scan before) looking (Or.inr enough)
        have ready := seen.grown.ready (scan before).ready
        exact (nodes_congr ((iget_got got).volume ready.unique rootdev)).trans (nodes_seen seen)

theorem namexLoop_trace {parent : Bool} {fuel : Nat} {path : List Byte} {name : Buffer}
    {r : Option Slot × Buffer × FsState} (ok : namexLoop parent fuel st ip path name = .ok r) : st.trace <:+ r.2.2.trace := by
  induction fuel generalizing st ip path name with
  | zero => cases ok
  | succ fuel ih =>
    have put (st : FsState) : st.trace <:+ (iunlockput st ip).trace :=
      ((iunlock_calm st ip).trace).trans (iput_trace _ ip)
    have lock := (ilock_calm st ip).trace
    unfold namexLoop at ok
    split at ok
    · split at ok
      · rw [← Except.ok.inj ok]
        exact iput_trace st ip
      · rw [← Except.ok.inj ok]
    · dsimp only at ok
      split at ok
      · rw [← Except.ok.inj ok]
        exact lock.trans (put _)
      · split at ok
        · rw [← Except.ok.inj ok]
          exact lock.trans (iunlock_calm _ ip).trace
        · split at ok
          · cases ok
          · rename_i st1 looking
            have look := trace_since ((dirlookup_nests _ ip _).elim looking)
            rw [← Except.ok.inj ok]
            exact lock.trans (look.trans (put _))
          · rename_i next off st1 looking
            have look := trace_since ((dirlookup_nests _ ip _).elim looking)
            exact lock.trans (look.trans ((put _).trans (ih ok)))

theorem volume_entry {v w : Volume} (same : node w = node v) (i : Nat) (name : List Byte) : w.entry i name = v.entry i name := by
  rw [← node_entry,← node_entry,same]

theorem volume_type {v w : Volume} (same : node w = node v) (i : Nat) : (w.inode i).type = (v.inode i).type :=
  congrArg Node.type (congrFun same i)

/-- A walk comes to the inode that the nodes say. -/
theorem Quiet.namexLoop {parent : Bool} {fuel : Nat} (quiet : Quiet strict loose marks origin ((ip,.read) :: hs) st)
    (bound : ∀ n, loose n → ∃ s, (s,n) ∈ marks) (room : hs.length < 48) {path : List Byte} (string : 0 ∉ path)
    {name : Buffer} {r : Option Slot × Buffer × FsState} (ok : Fs.namexLoop parent fuel st ip path name = .ok r)
    (enough : r.2.2.exhausted = false) :
    (r.1.map fun s => (r.2.2.icache s).inum) =
        (origin.volume rootdev).resolve (st.icache ip).inum parent (components path) ∧
      (parent = true → r.1 ≠ none → ∃ last, (components path).getLast? = some last ∧ cname r.2.1 = last.take dirsiz) := by
  have reader := @quiet_reader strict loose marks origin bound
  induction fuel generalizing st ip path name with
  | zero => cases ok
  | succ fuel ih =>
    unfold Fs.namexLoop at ok
    cases cut : skipelem path name with
    | none =>
      rw [cut] at ok
      rw [skipelem_none.mp cut,Volume.resolve_nil]
      cases parent with
      | true =>
        obtain rfl := Except.ok.inj ok
        exact ⟨rfl,fun _ some => absurd rfl some⟩
      | false =>
        obtain rfl := Except.ok.inj ok
        exact ⟨rfl,fun wrong => absurd wrong Bool.false_ne_true⟩
    | some rest =>
      obtain ⟨path',name'⟩ := rest
      obtain ⟨elem,element⟩ := skipelem_some string cut
      rw [cut] at ok
      have locked := reader.lock quiet List.mem_cons_self
      have valid := ilock_valid st ip
      have number : ((ilock st ip).icache ip).inum = (st.icache ip).inum := (ilock_calm st ip).inum ip
      dsimp only at ok locked
      rw [element.components,← number]
      generalize ilock st ip = st1 at ok locked valid
      have early : st1.exhausted = false → node (st1.volume rootdev) = node (origin.volume rootdev) ∧
          ((origin.volume rootdev).inode (st1.icache ip).inum).type = (st1.icache ip).type := fun enough1 => by
        have same := locked.same enough1
        refine ⟨same,?_⟩
        rw [← volume_type same,(locked.ready enough1 List.mem_cons_self valid).copy]
      have put (st2 : FsState) : st2.trace <:+ (iunlockput st2 ip).trace :=
        (iunlock_calm st2 ip).trace.trans (iput_trace _ ip)
      split at ok
      · rename_i file
        obtain rfl := Except.ok.inj ok
        have enough1 := exhausted_of_suffix (put st1) enough
        rw [← (early enough1).2] at file
        exact ⟨(Volume.resolve_file file).symm,fun _ some => absurd rfl some⟩
      rename_i directory
      have dir : IsDir st1 ip := ⟨valid,not_not.mp directory⟩
      split at ok
      · rename_i final
        obtain ⟨rfl,rfl⟩ := final
        obtain rfl := Except.ok.inj ok
        have enough1 := exhausted_of_suffix (iunlock_calm st1 ip).trace enough
        have empty : components ([] : List Byte) = [] := element.last.mp rfl
        have here := (early enough1).2
        rw [dir.2] at here
        rw [empty,Volume.resolve_last here]
        refine ⟨?_,fun _ _ => ⟨elem,rfl,element.title⟩⟩
        dsimp only [Option.map]
        rw [iunlock_icache]
      rename_i more
      have middle : ¬(parent = true ∧ components path' = []) := fun both => more ⟨both.1,element.last.mpr both.2⟩
      rw [Volume.resolve_step middle]
      have space : ((ip,Mode.read) :: hs).length < 50 := by
        rw [List.length_cons]
        omega
      have looked := reader.lookup name' locked space List.mem_cons_self dir
      cases looking : dirlookup st1 ip name' with
      | error e =>
        rw [looking] at ok
        cases ok
      | ok found =>
        rw [looking] at ok
        replace looked := looked.elim looking
        have look := trace_since ((dirlookup_nests st1 ip name').elim looking)
        have answer (enough2 : found.2.exhausted = false) :
            (origin.volume rootdev).entry (st1.icache ip).inum elem = found.1.map fun s => (found.2.icache s.1).inum := by
          have enough1 := exhausted_of_suffix look enough2
          have ready := locked.ready enough1 List.mem_cons_self valid
          rw [← volume_entry (early enough1).1]
          exact entry_looked ((locked.tended.kept enough1).lawful.scan ready dir.2) looking enough2 element.title
        obtain ⟨_ | ⟨next,off⟩,st2⟩ := found
        · obtain rfl := Except.ok.inj ok
          have enough2 := exhausted_of_suffix (put st2) enough
          rw [answer enough2]
          exact ⟨rfl,fun _ some => absurd rfl some⟩
        · dsimp only at ok looked
          have swapped := reader.perm looked (List.Perm.swap _ _ _)
          have after := reader.unlockput swapped
          have enough3 := exhausted_of_suffix (namexLoop_trace ok) enough
          have enough2 := exhausted_of_suffix (put st2) enough3
          have step := ih after element.string ok
          have same : ((iunlockput st2 ip).icache next).inum = (st2.icache next).inum := by
            rw [swapped.unlockput_eq enough2]
            exact (recount_field st2 ip _ next).2.1
          rw [answer enough2]
          dsimp only [Option.map,Option.bind]
          rw [← same]
          refine ⟨step.1,fun wants some => ?_⟩
          obtain ⟨last,final,title⟩ := step.2 wants some
          refine ⟨last,?_,title⟩
          have inner : components path' ≠ [] := fun empty => by
            rw [empty] at final
            cases final
          rw [List.getLast?_cons_of_ne_nil inner]
          exact final

/-- From the root or the working directory. -/
theorem Quiet.namex {parent : Bool} (quiet : Quiet strict loose marks origin hs st)
    (bound : ∀ n, loose n → ∃ s, (s,n) ∈ marks) (room : hs.length < 48) {cwd : Slot} (here : (cwd,m) ∈ hs)
    {path : List Byte} (string : 0 ∉ path) {r : Option Slot × Buffer × FsState} (ok : Fs.namex st cwd path parent = .ok r)
    (enough : r.2.2.exhausted = false) :
    (r.1.map fun s => (r.2.2.icache s).inum) = (origin.volume rootdev).resolve
        (if path.head? = some slash then rootino else (st.icache cwd).inum) parent (components path) ∧
      (parent = true → r.1 ≠ none → ∃ last, (components path).getLast? = some last ∧ cname r.2.1 = last.take dirsiz) := by
  have reader := @quiet_reader strict loose marks origin bound
  unfold Fs.namex at ok
  split at ok
  · cases ok
  · rename_i ip st1 first
    split at first
    · rename_i absolute
      have root := (reader.root quiet (by omega)).elim first
      rw [if_pos absolute,← (iget_got first).inum]
      exact root.namexLoop bound room string ok enough
    · rename_i relative
      obtain ⟨rfl,rfl⟩ := Prod.mk.inj (Except.ok.inj first)
      have number : ((idup st cwd).icache cwd).inum = (st.icache cwd).inum := (recount_field st cwd _ cwd).2.1
      rw [if_neg relative,← number]
      exact (reader.dup quiet here).namexLoop bound room string ok enough

end quiet

end Lxos.Files
