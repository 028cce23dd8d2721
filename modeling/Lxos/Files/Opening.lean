import Lxos.Files.Creation
import Lxos.Kernel.Release

/-! Calls with a path. What `create` and `namei` come to is what the service says for the
nodes before the call. -/
namespace Lxos.Files
open Lxos.Bytes Lxos.Fs Lxos.Kernel Lxos.Outcome Lxos.Places

section service
variable {s : Service} {v : Volume} {path : List Byte} {d : Nat} {last : List Byte}

theorem service_walk (same : s.node = node v) (i : Nat) (path : List (List Byte)) : s.walk i path = v.walk i path := by
  unfold Service.walk Volume.walk
  have entry : (fun i => (s.node i).entry) = v.entry := by
    funext i name
    rw [same]
    exact node_entry v i name
  rw [entry]

theorem service_resolve (same : s.node = node v) : s.resolve path = v.resolve (s.start path) false (components path) := by
  unfold Service.resolve Volume.resolve
  rw [if_neg Bool.false_ne_true]
  exact service_walk same _ _

theorem service_parent (same : s.node = node v) : s.parent path = (v.resolve (s.start path) true (components path)).bind
    fun d => (components path).getLast?.map fun last => (d,last.take dirsiz) := by
  unfold Service.parent Volume.resolve
  rw [if_pos rfl]
  cases ends : (components path).getLast? with
  | none =>
    rw [if_pos (List.getLast?_eq_none_iff.mp ends)]
    rfl
  | some last =>
    have some_path : components path ≠ [] := fun empty => by
      rw [empty] at ends
      cases ends
    rw [if_neg some_path]
    dsimp only
    rw [service_walk same]
    have type : (fun d => decide ((s.node d).type = tDir)) = fun d => decide ((v.inode d).type = tDir) := by
      rw [same]
      rfl
    rw [type]
    cases (v.walk (s.start path) (components path).dropLast).filter fun d => decide ((v.inode d).type = tDir) with
    | none => rfl
    | some d => rfl

end service

section paths
variable {strict : Prop} {loose : Nat → Prop} {marks : List (Slot × Nat)} {hs : List Handle} {st st' : FsState}
  {cwd : Slot} {m : Mode} {path : List Byte} {type major minor : BitVec 16} {s : Service}

/-- `namei`. -/
theorem namei_resolved (tended : Tended strict loose marks st hs st) (bound : ∀ n, loose n → ∃ s, (s,n) ∈ marks)
    (room : hs.length < 48) (here : (cwd,m) ∈ hs) (string : 0 ∉ path) (node : s.node = nodes st)
    (start : s.cwd = (st.icache cwd).inum) {r : Option Slot × FsState} (ok : namei st cwd path = .ok r)
    (enough : r.2.exhausted = false) :
    (r.1.map fun ip => (r.2.icache ip).inum) = s.resolve path ∧ nodes r.2 = nodes st := by
  have quiet : Quiet strict loose marks st hs st := ⟨tended,fun _ => rfl⟩
  have after := ((quiet_reader st bound).namei quiet room here path).elim ok
  unfold namei at ok
  cases walk : namex st cwd path false with
  | error e =>
    rw [walk] at ok
    cases ok
  | ok answer =>
    obtain ⟨found,name,st1⟩ := answer
    rw [walk] at ok
    obtain rfl := Except.ok.inj ok
    have resolved := (quiet.namex bound room here string walk enough).1
    rw [service_resolve (v := st.volume rootdev) node]
    unfold Service.start
    rw [start]
    refine ⟨resolved,?_⟩
    cases found with
    | none => exact after.same enough
    | some ip => exact after.same enough

theorem iunlockput_trace (st : FsState) (ip : Slot) : st.trace <:+ (iunlockput st ip).trace :=
  (iunlock_calm st ip).trace.trans (iput_trace _ ip)

/-- A slot that is loaded has the type of its node. -/
theorem Quiet.kind {origin : FsState} {ip : Slot} (quiet : Quiet strict loose marks origin hs st) (enough : st.exhausted = false)
    (member : (ip,m) ∈ hs) (valid : (st.icache ip).valid = true) :
    (nodes origin (st.icache ip).inum).type = (st.icache ip).type := by
  rw [← quiet.same enough]
  exact congrArg Dinode.type (quiet.ready enough member valid).copy

/-- What the walk to the parent of a path came to, and what the directory says, as long as
blocks last. -/
theorem parent_looked (quiet : Quiet strict loose marks st hs st) (bound : ∀ n, loose n → ∃ s, (s,n) ∈ marks)
    (room : hs.length < 48) (here : (cwd,m) ∈ hs) (string : 0 ∉ path) (node : s.node = nodes st)
    (start : s.cwd = (st.icache cwd).inum) {dp : Slot} {name : Buffer} {st1 : FsState}
    (walk : namex st cwd path true = .ok (some dp,name,st1)) {answer : Option (Slot × Nat) × FsState}
    (looking : dirlookup (ilock st1 dp) dp name = .ok answer) (enough : answer.2.exhausted = false) :
    s.parent path = some (((ilock st1 dp).icache dp).inum,cname name) ∧
      (s.node ((ilock st1 dp).icache dp).inum).entry (cname name) = answer.1.map fun s => (answer.2.icache s.1).inum := by
  have reader := @quiet_reader strict loose marks st bound
  have walked := (reader.namex quiet room here path true).elim walk
  obtain ⟨quiet1,dir1⟩ := walked
  have resolved := quiet.namex bound room here string walk
  have quiet2 := reader.lock quiet1 List.mem_cons_self
  have dir2 := (dir1 rfl).lock
  have lock := (ilock_calm st1 dp).trace
  have number := (ilock_calm st1 dp).inum dp
  dsimp only at resolved quiet2 dir2
  generalize ilock st1 dp = st2 at quiet2 dir2 lock number looking ⊢
  have enough2 := exhausted_of_suffix (trace_since ((dirlookup_nests st2 dp name).elim looking)) enough
  have scan : Scan rootdev dp st2 :=
    (quiet2.tended.kept enough2).lawful.scan (quiet2.ready enough2 List.mem_cons_self dir2.1) dir2.2
  obtain ⟨found,title⟩ := resolved (exhausted_of_suffix lock enough2)
  obtain ⟨last,ends,same⟩ := title rfl (Option.some_ne_none _)
  have entry := entry_looked scan looking enough (List.take_of_length_le (cname_length name)).symm
  have first : s.start path = if path.head? = some slash then rootino else (st.icache cwd).inum := by
    unfold Service.start
    rw [start]
  refine ⟨?_,?_⟩
  · rw [service_parent (v := st.volume rootdev) node,first,← found,ends]
    exact congrArg some (Prod.ext number.symm same.symm)
  · rw [node,← quiet2.same enough2,← entry]
    exact node_entry _ _ _

/-- `create` of a file or a device. -/
theorem create_served (tended : Tended strict loose marks st hs st) (bound : ∀ n, loose n → ∃ s, (s,n) ∈ marks)
    (room : hs.length < 48) (here : (cwd,m) ∈ hs) (string : 0 ∉ path) (some_type : type ≠ 0) (regular : type ≠ tDir)
    (node : s.node = nodes st) (start : s.cwd = (st.icache cwd).inum) (count : s.ninodes = st.sb.ninodes)
    {r : Option Slot × FsState} (ok : create st cwd path type major minor = .ok r) (enough : r.2.exhausted = false) :
    s.create path type major minor =
      .ok (r.1.map fun ip => (r.2.icache ip).inum,{ s with node := nodes r.2 }) := by
  have quiet : Quiet strict loose marks st hs st := ⟨tended,fun _ => rfl⟩
  have reader := @quiet_reader strict loose marks st bound
  have still {st' : FsState} (same : nodes st' = nodes st) : { s with node := nodes st' } = s := by
    rw [same,← node]
  unfold create nameiparent at ok
  unfold Service.create
  cases walk : namex st cwd path true with
  | error e =>
    rw [walk] at ok
    cases ok
  | ok answer =>
    have walked := (reader.namex quiet room here path true).elim walk
    obtain ⟨_ | dp,name,st1⟩ := answer
    · have resolved := quiet.namex bound room here string walk
      rw [walk] at ok
      obtain rfl := Except.ok.inj ok
      have first : s.start path = if path.head? = some slash then rootino else (st.icache cwd).inum := by
        unfold Service.start
        rw [start]
      dsimp only at resolved ⊢
      rw [service_parent (v := st.volume rootdev) node,first,← (resolved enough).1,still (walked.same enough)]
      rfl
    have known {answer : Option (Slot × Nat) × FsState} (looking : dirlookup (ilock st1 dp) dp name = .ok answer) :=
      parent_looked quiet bound room here string node start walk looking
    rw [walk] at ok
    obtain ⟨quiet1,dir1⟩ := walked
    have quiet2 := reader.lock quiet1 List.mem_cons_self
    have dir2 := (dir1 rfl).lock
    dsimp only at ok quiet2 dir2 known
    generalize ilock st1 dp = st2 at ok quiet2 dir2 known
    have space : ((dp,Mode.read) :: hs).length < 50 := by
      rw [List.length_cons]
      omega
    have looked := reader.lookup name quiet2 space List.mem_cons_self dir2
    cases looking : dirlookup st2 dp name with
    | error e =>
      rw [looking] at ok
      cases ok
    | ok answer =>
      have look := trace_since ((dirlookup_nests st2 dp name).elim looking)
      replace looked := looked.elim looking
      replace known := known looking
      rw [looking] at ok
      obtain ⟨_ | ⟨ip,off⟩,st3⟩ := answer
      · dsimp only at ok looked known
        cases new : createNew st3 dp name type major minor with
        | error e =>
          rw [new] at ok
          cases ok
        | ok made =>
          rw [new] at ok
          obtain rfl := Except.ok.inj ok
          have enough3 := exhausted_of_suffix (trace_since ((createNew_nests st3 dp name type major minor).elim new)) enough
          have enough2 := exhausted_of_suffix look enough3
          obtain ⟨quiet3,dir3⟩ := looked
          have same := quiet3.same enough3
          have sb := (quiet3.tended.kept enough3).evolves.sb
          obtain ⟨parent,absent⟩ := known enough3
          have scan : Scan rootdev dp st2 :=
            (quiet2.tended.kept enough2).lawful.scan (quiet2.ready enough2 List.mem_cons_self dir2.1) dir2.2
          obtain ⟨seen,_⟩ := dirlookup_looked scan looking (Or.inr enough3)
          have number3 := seen.grown.change.inum dp
          obtain ⟨free,linked⟩ := nodes_created quiet3.tended bound room dir3 some_type regular
            (by rw [same,number3,← node]; exact absent) new enough (node.trans same.symm)
            (count.trans (congrArg Superblock.ninodes sb).symm)
          rw [parent]
          dsimp only [Option.map]
          rw [absent]
          dsimp only [Option.map]
          rw [free,linked,number3]
          rfl
      · have swapped := reader.perm looked (List.Perm.swap _ _ _)
        have after := reader.unlockput swapped
        have locked := reader.lock after List.mem_cons_self
        have valid := ilock_valid (iunlockput st3 dp) ip
        have trace := (ilock_calm (iunlockput st3 dp) ip).trace
        have number := (ilock_calm (iunlockput st3 dp) ip).inum ip
        dsimp only at ok swapped locked known
        generalize ilock (iunlockput st3 dp) ip = st4 at ok locked valid trace number
        have enough4 : st4.exhausted = false := by
          split at ok
          · rw [← Except.ok.inj ok] at enough
            exact enough
          · rw [← Except.ok.inj ok] at enough
            exact exhausted_of_suffix (iunlockput_trace st4 ip) enough
        have enough3 := exhausted_of_suffix ((iunlockput_trace st3 dp).trans trace) enough4
        have kind := locked.kind enough4 List.mem_cons_self valid
        obtain ⟨parent,present⟩ := known enough3
        have kept : (st4.icache ip).inum = (st3.icache ip).inum :=
          number.trans ((nodes_released swapped.tended bound enough3).2 ip)
        rw [kept] at kind
        rw [parent]
        dsimp only [Option.map]
        rw [present]
        dsimp only [Option.map]
        rw [node,kind]
        split at ok
        · rename_i file
          obtain rfl := Except.ok.inj ok
          rw [if_pos file,still (locked.same enough4)]
          dsimp only
          rw [kept]
        · rename_i other
          obtain rfl := Except.ok.inj ok
          have last := reader.unlockput locked
          dsimp only at enough ⊢
          rw [if_neg other,still (last.same enough)]

end paths

end Lxos.Files
