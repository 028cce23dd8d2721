import Lxos.Files.Start
import Lxos.Kernel.Coherence
import Lxos.Kernel.Fetching

/-! Calls return. Where no directory of the image has a hole, a call ends in every state of
every run with blocks left, unless it needs a new inode and there is none. -/
namespace Lxos.Files
open Lxos.Bytes Lxos.Fs Lxos.Kernel Lxos.Utils Lxos.Outcome Lxos.Places

/-- No file changed since `origin`, the directories have no holes, and there are blocks left. -/
structure Alive (strict : Prop) (loose : Nat → Prop) (marks : List (Slot × Nat)) (origin : FsState)
    (hs : List Handle) (st : FsState) : Prop where
  quiet : Quiet strict loose marks origin hs st
  neat : Neat hs st
  enough : st.exhausted = false

section alive
variable {strict : Prop} {loose : Nat → Prop} {marks : List (Slot × Nat)} {origin st st' : FsState} {hs hs' : List Handle}
  {ip dp cwd : Slot} {m : Mode} {name : Buffer} {path : List Byte} {n : Nat}

theorem Alive.tidy (alive : Alive strict loose marks origin hs st) : Tidy False st := alive.neat.tidy alive.enough

theorem Alive.lawful (alive : Alive strict loose marks origin hs st) : Lawful strict loose st :=
  (alive.quiet.tended.kept alive.enough).lawful

theorem Alive.perm (alive : Alive strict loose marks origin hs st) (bound : ∀ n, loose n → ∃ s, (s,n) ∈ marks)
    (same : hs.Perm hs') : Alive strict loose marks origin hs' st :=
  ⟨(quiet_reader origin bound).perm alive.quiet same,alive.neat.perm same,alive.enough⟩

theorem Alive.spare (alive : Alive strict loose marks origin hs st) (room : hs.length < 50) : ∃ s, (st.icache s).ref = 0 :=
  alive.neat.counted.counts.free (by rw [List.length_map,Fintype.card_fin]; exact room)

theorem Alive.lock (alive : Alive strict loose marks origin hs st) (bound : ∀ n, loose n → ∃ s, (s,n) ∈ marks)
    (member : (ip,m) ∈ hs) : Alive strict loose marks origin hs (ilock st ip) := by
  have named := alive.tidy.named (alive.neat.counted.used member)
  refine ⟨(quiet_reader origin bound).lock alive.quiet member,alive.neat.lock member,?_⟩
  rw [(ilock_loaded named).exhausted]
  exact alive.enough

theorem Alive.unlockput (alive : Alive strict loose marks origin ((ip,.read) :: hs) st)
    (bound : ∀ n, loose n → ∃ s, (s,n) ∈ marks) : Alive strict loose marks origin hs (iunlockput st ip) := by
  refine ⟨(quiet_reader origin bound).unlockput alive.quiet,alive.neat.unlockput,?_⟩
  rw [alive.quiet.unlockput_eq alive.enough]
  exact alive.enough

theorem Alive.directory (alive : Alive strict loose marks origin hs st) (member : (dp,m) ∈ hs) (dir : IsDir st dp) :
    Ready rootdev dp st ∧ Scan rootdev dp st := by
  have ready := alive.tidy.ready (alive.neat.counted.used member) dir.1
  exact ⟨ready,alive.tidy.scan ready dir.2⟩

/-- A lookup ends. -/
theorem Alive.lookup (alive : Alive strict loose marks origin hs st) (bound : ∀ n, loose n → ∃ s, (s,n) ∈ marks)
    (room : hs.length < 50) (member : (dp,m) ∈ hs) (dir : IsDir st dp) (name : Buffer) :
    ∃ r, dirlookup st dp name = .ok r ∧ match r.1 with
      | none => Alive strict loose marks origin hs r.2 ∧ IsDir r.2 dp
      | some (ip,_) => Alive strict loose marks origin ((ip,.read) :: hs) r.2 := by
  obtain ⟨ready,scan⟩ := alive.directory member dir
  obtain ⟨r,ok⟩ := scan.total (alive.spare room) name
  have looked := alive.tidy.looked ready dir.2 ok
  have quiet := ((quiet_reader origin bound).lookup name alive.quiet room member dir).elim ok
  have neat := (alive.neat.lookup room member dir name).elim ok
  refine ⟨r,ok,?_⟩
  obtain ⟨_ | ⟨ip,off⟩,st1⟩ := r
  · exact ⟨⟨quiet.1,neat.1,looked.exhausted.trans alive.enough⟩,quiet.2⟩
  · obtain ⟨st0,n,idle,got,_⟩ := looked
    refine ⟨quiet,neat,?_⟩
    unfold FsState.exhausted
    rw [got.trace]
    exact idle.exhausted.trans alive.enough

/-- A walk ends: each round takes a component. -/
theorem Alive.namexLoop (alive : Alive strict loose marks origin ((ip,.read) :: hs) st)
    (bound : ∀ n, loose n → ∃ s, (s,n) ∈ marks) (room : hs.length < 48) (parent : Bool) (fuel : Nat) (string : 0 ∉ path)
    (enough : path.length < fuel) (name : Buffer) :
    ∃ r, Fs.namexLoop parent fuel st ip path name = .ok r ∧ Walked (Alive strict loose marks origin) hs parent r := by
  induction fuel generalizing st ip path name with
  | zero => omega
  | succ fuel ih =>
    unfold Fs.namexLoop
    cases cut : skipelem path name with
    | none =>
      cases parent with
      | true =>
        refine ⟨_,rfl,?_⟩
        have after := alive.unlockput bound
        have used : 0 < (st.icache ip).ref := alive.neat.counted.used List.mem_cons_self
        have unlocked : iunlock st ip = st := if_neg (by omega)
        unfold iunlockput at after
        rw [unlocked] at after
        exact after
      | false => exact ⟨_,rfl,alive,fun up => absurd up Bool.false_ne_true⟩
    | some r =>
      obtain ⟨path',name'⟩ := r
      obtain ⟨elem,element⟩ := skipelem_some string cut
      have locked := alive.lock bound List.mem_cons_self
      have valid := ilock_valid st ip
      dsimp only
      generalize ilock st ip = st1 at locked valid ⊢
      split
      · exact ⟨_,rfl,locked.unlockput bound⟩
      · rename_i directory
        have dir : IsDir st1 ip := ⟨valid,not_not.mp directory⟩
        have used : 0 < (st1.icache ip).ref := locked.neat.counted.used List.mem_cons_self
        have unlocked : iunlock st1 ip = st1 := if_neg (by omega)
        split
        · rw [unlocked]
          exact ⟨_,rfl,locked,fun _ => dir⟩
        · have space : ((ip,Mode.read) :: hs).length < 50 := by
            rw [List.length_cons]
            omega
          obtain ⟨⟨_ | ⟨next,off⟩,st2⟩,found,after⟩ := locked.lookup bound space List.mem_cons_self dir name'
          · rw [found]
            dsimp only at after
            have put := after.1.unlockput bound
            exact ⟨_,rfl,put⟩
          · rw [found]
            have shorter := element.shorter
            dsimp only at after
            have put := (after.perm bound (List.Perm.swap _ _ _)).unlockput bound
            exact ih put element.string (by omega) name'

theorem Alive.namex (alive : Alive strict loose marks origin hs st) (bound : ∀ n, loose n → ∃ s, (s,n) ∈ marks)
    (room : hs.length < 48) (here : (cwd,m) ∈ hs) (string : 0 ∉ path) (parent : Bool) :
    ∃ r, Fs.namex st cwd path parent = .ok r ∧ Walked (Alive strict loose marks origin) hs parent r := by
  have start : ∃ r, (if path.head? = some slash then iget st rootdev rootino else .ok (cwd,idup st cwd)) = .ok r ∧
      Alive strict loose marks origin ((r.1,.read) :: hs) r.2 := by
    split
    · obtain ⟨ip,st1,got⟩ := @iget_ok rootdev rootino st (alive.spare (by omega))
      refine ⟨_,got,((quiet_reader origin bound).root alive.quiet (by omega)).elim got,
        (alive.neat.root (by omega)).elim got,?_⟩
      unfold FsState.exhausted
      rw [(iget_got got).trace]
      exact alive.enough
    · exact ⟨_,rfl,(quiet_reader origin bound).dup alive.quiet here,alive.neat.dup here,alive.enough⟩
  obtain ⟨r,ok,after⟩ := start
  unfold Fs.namex
  rw [ok]
  exact after.namexLoop bound room parent _ string (Nat.lt_succ_self _) _

/-- The search for a free entry ends, as that for a name does. -/
theorem dirlinkLoop_total (fuel : Nat) (small : (st.icache dp).size.toNat ≤ 71680) (de : Buffer) {j : Nat}
    (within : j ≤ 4480) (enough : 4480 < j + fuel) : ∃ r, dirlinkLoop dp fuel st de (16 * j) = .ok r := by
  induction fuel generalizing st de j with
  | zero => omega
  | succ fuel ih =>
    unfold dirlinkLoop
    split
    · rename_i inside
      have next : u32 (16 * j + direntSize) = 16 * (j + 1) := u32_of_lt (by change 16 * j + 16 < _; omega)
      have round := readEntry_mapped st dp de (16 * j) .dirlinkRead
      rw [next]
      generalize readi st dp de (16 * j) direntSize = read at round ⊢
      obtain ⟨count,de1,st1⟩ := read
      dsimp only at round ⊢
      generalize (if count ≠ ((direntSize : Nat) : Int) then kprint st1 .dirlinkRead else st1) = st2 at round ⊢
      have size : (st2.icache dp).size = (st.icache dp).size := by
        obtain ⟨addrs,same⟩ := round.self
        rw [same]
      split
      · exact ⟨_,rfl⟩
      · exact ih (by rw [size]; exact small) de1 (by omega) (by omega)
    · exact ⟨_,rfl⟩

theorem dirlink_total (tidy : Tidy False st) (ready : Ready rootdev dp st) (type : (st.icache dp).type = tDir)
    (spare : ∃ s, (st.icache s).ref = 0) (name : Buffer) (n : Nat) : ∃ r, dirlink st dp name n = .ok r := by
  have scan := tidy.scan ready type
  obtain ⟨r,ok⟩ := scan.total spare name
  have looked := tidy.looked ready type ok
  unfold dirlink
  rw [ok]
  obtain ⟨_ | ⟨ip,off⟩,st1⟩ := r
  · have small : (st1.icache dp).size.toNat ≤ 71680 := by
      rw [looked.icache]
      exact scan.small
    obtain ⟨place,found⟩ := dirlinkLoop_total (entries + 1) small st1.stack (Nat.zero_le _) (by decide)
    rw [Nat.mul_zero] at found
    dsimp only
    rw [found]
    exact ⟨_,rfl⟩
  · exact ⟨_,rfl⟩

/-- An inode is made and named, or there is none. -/
theorem Alive.createNew (alive : Alive strict loose marks origin ((dp,.read) :: hs) st) (room : hs.length < 48)
    (dir : IsDir st dp) (name : Buffer) {type : BitVec 16} (regular : type ≠ tDir) (major minor : BitVec 16) :
    (∃ r, Kernel.createNew st dp name type major minor = .ok r) ∨
      Kernel.createNew st dp name type major minor = .error .nullInode ∧
        ∀ j, 1 ≤ j → j < st.sb.ninodes → (st.table rootdev j).type ≠ 0 := by
  obtain ⟨ready,_⟩ := alive.directory List.mem_cons_self dir
  have tidy := alive.tidy
  have width : st.sb.ninodes ≤ 65536 :=
    alive.lawful.volume.sound.layout.count.trans alive.lawful.volume.narrow
  have device := ready.locked.2.1
  have allocated : Meets Tolerated (ialloc st rootdev type) _ :=
    Held.iallocLoop alive.neat.counted (by rw [List.length_map,List.length_cons]; omega) rootdev type st.sb.ninodes 1
  have searched := @iallocLoop_search rootdev 1 type st st.sb.ninodes (by omega) (le_refl 1) (by omega) fun j low high => by omega
  change (∃ k, FirstFree st rootdev k ∧ Granted rootdev type k st (ialloc st rootdev type)) ∨ _ at searched
  unfold Kernel.createNew
  rw [device]
  rcases searched with ⟨k,first,granted⟩ | ⟨taken,st1,none,_⟩
  · refine Or.inl ?_
    cases allocating : ialloc st rootdev type with
    | error e =>
      rw [allocating] at granted
      cases granted with
      | full taken =>
        obtain ⟨s,zero⟩ := alive.spare (by rw [List.length_cons]; omega)
        exact absurd zero (taken s)
    | ok answer =>
      replace allocated := allocated.elim allocating
      rw [allocating] at granted
      obtain ⟨_ | ip,st1⟩ := answer
      · cases granted
      have held : Held (ip :: dp :: hs.map Prod.fst) st1 := allocated
      have calm : Calm st1 (createInode st1 ip major minor) :=
        (ilock_calm st1 ip).trans ((setDinode_local _ _ _).calm.trans ((iupdate_io _ _).toLocal ip).calm)
      obtain ⟨n,claimed⟩ := iallocLoop_claimed _ (le_refl 1) allocating
      have created : Created False type ip st (createInode st1 ip major minor) := tidy.created claimed major minor
      have held2 := held.calm calm
      dsimp only
      rw [if_neg regular]
      dsimp only
      generalize createInode st1 ip major minor = st2 at created held2 ⊢
      have other : st2.icache dp = st.icache dp := created.other dp (created.apart dp ready.locked.1 (by
        rw [ready.copy,dir.2]
        decide))
      have ready2 : Ready rootdev dp st2 :=
        created.tidy.ready (by rw [other]; exact ready.locked.1) (by rw [other]; exact dir.1)
      have few : (ip :: dp :: hs.map Prod.fst).length < Fintype.card Slot := by
        rw [Fintype.card_fin,List.length_cons,List.length_cons,List.length_map]
        change hs.length + 1 + 1 < 50
        omega
      obtain ⟨⟨c,st3⟩,linked⟩ := dirlink_total created.tidy ready2 (by rw [other]; exact dir.2) (held2.counts.free few) name
        (st2.icache ip).inum
      rw [linked]
      exact ⟨_,rfl⟩
  · refine Or.inr ⟨?_,taken⟩
    change ialloc st rootdev type = _ at none
    rw [none]

/-- `create` ends, or the service finds no free inode either. -/
theorem Alive.create (alive : Alive strict loose marks st hs st) (bound : ∀ n, loose n → ∃ s, (s,n) ∈ marks)
    (room : hs.length < 48) (here : (cwd,m) ∈ hs) (string : 0 ∉ path) {type : BitVec 16} (regular : type ≠ tDir)
    (major minor : BitVec 16) {s : Service} (node : s.node = nodes st) (start : s.cwd = (st.icache cwd).inum)
    (count : s.ninodes = st.sb.ninodes) : (∃ r, Kernel.create st cwd path type major minor = .ok r) ∨
      Kernel.create st cwd path type major minor = .error .nullInode ∧
        s.create path type major minor = .error .nullInode := by
  obtain ⟨⟨_ | dp,name,st1⟩,walk,walked⟩ := alive.namex bound room here string true
  · refine Or.inl ?_
    unfold Kernel.create nameiparent
    rw [walk]
    exact ⟨_,rfl⟩
  obtain ⟨alive1,dir1⟩ := walked
  have alive2 := alive1.lock bound List.mem_cons_self
  have dir2 := (dir1 rfl).lock
  have known {answer : Option (Slot × Nat) × FsState} (looking : dirlookup (ilock st1 dp) dp name = .ok answer) :=
    parent_looked alive.quiet bound room here string node start walk looking
  have space : ((dp,Mode.read) :: hs).length < 50 := by
    rw [List.length_cons]
    omega
  unfold Kernel.create nameiparent
  rw [walk]
  dsimp only at alive2 dir2 known ⊢
  generalize ilock st1 dp = st2 at alive2 dir2 known ⊢
  obtain ⟨⟨_ | ⟨ip,off⟩,st3⟩,looking,after⟩ := alive2.lookup bound space List.mem_cons_self dir2 name
  · dsimp only at after
    obtain ⟨alive3,dir3⟩ := after
    rw [looking]
    dsimp only
    rcases alive3.createNew room dir3 name regular major minor with ⟨r,ok⟩ | ⟨fail,taken⟩
    · rw [ok]
      exact Or.inl ⟨_,rfl⟩
    · rw [fail]
      refine Or.inr ⟨rfl,?_⟩
      obtain ⟨parent,absent⟩ := known looking alive3.enough
      have same := alive3.quiet.same alive3.enough
      have sb := (alive3.quiet.tended.kept alive3.enough).evolves.sb
      have none : s.free = none := by
        unfold Service.free
        refine List.find?_range_eq_none.mpr fun j low => ?_
        rw [Bool.not_eq_true',decide_eq_false_iff_not]
        rintro ⟨positive,zero⟩
        have inside : j < st3.sb.ninodes := by
          rw [count] at low
          exact low.trans_eq (congrArg Superblock.ninodes sb).symm
        exact taken j positive inside ((node_unused alive3.lawful (node.trans same.symm) inside).mp zero)
      unfold Service.create
      rw [parent]
      dsimp only
      rw [absent]
      dsimp only [Option.map]
      rw [none]
  · rw [looking]
    dsimp only
    split
    · exact Or.inl ⟨_,rfl⟩
    · exact Or.inl ⟨_,rfl⟩

end alive

/-- The call ends, or it fails as the service does. -/
def Ends (data : Nat) (k : State) (call : Call) : Prop := (∃ r k', dispatch data k call = .ok (r,k')) ∨
  dispatch data k call = .error .nullInode ∧ ∀ q, request k call = some q → (service k).serve q = .error .nullInode

section calls
variable {all : List Page} {kpgdir : Page} {strict : Prop} {loose : Nat → Prop} {marks : List (Slot × Nat)} {origin : FsState}
  {data : Nat} {k k₁ : State} {path : List Byte}

theorem alive_moored (settled : Settled strict loose marks origin k) (neat : Safe Neat k) :
    Alive strict loose k.moorings k.fs k.moored k.fs := by
  refine ⟨⟨settled.safe.moor,fun _ => rfl⟩,⟨settled.safe.moor.counted,neat.inv.tidy,fun _ s member => ?_⟩,settled.enough⟩
  obtain ⟨h,_,same⟩ := List.mem_map.mp member
  cases congrArg Prod.snd same

theorem openPath_ends (settled : Settled strict loose marks origin k) (bound : ∀ n, loose n → ∃ s, (s,n) ∈ marks)
    (neat : Safe Neat k) (string : 0 ∉ path) (omode : Nat) : (∃ r, openPath k path omode = .ok r) ∨
      openPath k path omode = .error .nullInode ∧ (service k).open_ path omode = .error .nullInode := by
  have alive := alive_moored settled neat
  obtain ⟨room,here⟩ := settled.moorage
  unfold openPath Service.open_
  split
  · rcases alive.create (settled.bound bound) room here string (by decide : tFile ≠ tDir) 0 0 (s := service k) rfl rfl rfl with
      ⟨⟨_ | ip,fs⟩,ok⟩ | ⟨fail,none⟩
    · rw [ok]
      exact Or.inl ⟨_,rfl⟩
    · rw [ok]
      exact Or.inl ⟨_,rfl⟩
    · rw [fail,none]
      exact Or.inr ⟨rfl,rfl⟩
  · obtain ⟨⟨found,name,fs⟩,walk,_⟩ := alive.namex (settled.bound bound) room here string false
    refine Or.inl ?_
    unfold namei
    rw [walk]
    cases found with
    | none => exact ⟨_,rfl⟩
    | some ip =>
      dsimp only
      split
      · exact ⟨_,rfl⟩
      · exact ⟨_,rfl⟩

theorem mknodPath_ends (settled : Settled strict loose marks origin k) (bound : ∀ n, loose n → ∃ s, (s,n) ∈ marks)
    (neat : Safe Neat k) (string : 0 ∉ path) (major minor : Nat) : (∃ r, mknodPath k path major minor = .ok r) ∨
      mknodPath k path major minor = .error .nullInode ∧ (service k).mknod path major minor = .error .nullInode := by
  have alive := alive_moored settled neat
  obtain ⟨room,here⟩ := settled.moorage
  unfold mknodPath Service.mknod
  rcases alive.create (settled.bound bound) room here string (by decide : tDev ≠ tDir) (BitVec.ofNat 16 major)
    (BitVec.ofNat 16 minor) (s := service k) rfl rfl rfl with ⟨⟨_ | ip,fs⟩,ok⟩ | ⟨fail,none⟩
  · rw [ok]
    exact Or.inl ⟨_,rfl⟩
  · rw [ok]
    exact Or.inl ⟨_,rfl⟩
  · rw [fail,none]
    exact Or.inr ⟨rfl,rfl⟩

theorem sysOpen_ends (settled : Settled strict loose marks origin k) (bound : ∀ n, loose n → ∃ s, (s,n) ∈ marks)
    (neat : Safe Neat k) (resident : Resident k) : Ends data k .open_ := by
  obtain ⟨o,k1,fetched⟩ := argstr_total resident 0
  obtain ⟨path,first,string⟩ := argstr_text fetched
  unfold Ends dispatch sysOpen
  rw [fetched]
  cases o with
  | none => exact Or.inl ⟨_,_,rfl⟩
  | some found =>
    obtain ⟨addr,len⟩ := found
    obtain ⟨o,k2,fetched⟩ := argint_total (resident.accessed first) 1
    obtain ⟨value,second⟩ := argint_word fetched
    have accessed := first.trans second
    rw [word_accessed first] at value
    dsimp only
    rw [fetched]
    cases o with
    | none => exact Or.inl ⟨_,_,rfl⟩
    | some omode =>
      have same : userString k2 addr len = userString k1 addr len := by
        unfold userString
        rw [second.userMem]
      have here : userString k1 addr len = userString k addr len := by
        unfold userString
        rw [first.userMem]
      rcases openPath_ends (settled.accessed accessed) bound (neat.accessed accessed) (string _ rfl) omode with
        ⟨⟨r,k'⟩,ok⟩ | ⟨fail,none⟩
      · rw [← here,← same] at ok
        exact Or.inl ⟨r,k',ok⟩
      · rw [← here,← same] at fail
        refine Or.inr ⟨fail,fun q asked => ?_⟩
        unfold request at asked
        rw [← path,← value] at asked
        obtain rfl := Option.some.inj asked
        rw [service_accessed accessed] at none
        change ((service k).open_ (userString k addr len) omode).map _ = _
        rw [none]
        rfl

theorem sysMknod_ends (settled : Settled strict loose marks origin k) (bound : ∀ n, loose n → ∃ s, (s,n) ∈ marks)
    (neat : Safe Neat k) (resident : Resident k) : Ends data k .mknod := by
  obtain ⟨o,k1,fetched⟩ := argstr_total resident 0
  obtain ⟨path,first,string⟩ := argstr_text fetched
  unfold Ends dispatch sysMknod
  rw [fetched]
  cases o with
  | none => exact Or.inl ⟨_,_,rfl⟩
  | some found =>
    obtain ⟨addr,len⟩ := found
    obtain ⟨o,k2,fetched⟩ := argint_total (resident.accessed first) 1
    obtain ⟨value,second⟩ := argint_word fetched
    rw [word_accessed first] at value
    dsimp only
    rw [fetched]
    cases o with
    | none => exact Or.inl ⟨_,_,rfl⟩
    | some major =>
      obtain ⟨o,k3,fetched⟩ := argint_total (resident.accessed (first.trans second)) 2
      obtain ⟨value',third⟩ := argint_word fetched
      have accessed := (first.trans second).trans third
      rw [word_accessed (first.trans second)] at value'
      dsimp only
      rw [fetched]
      cases o with
      | none => exact Or.inl ⟨_,_,rfl⟩
      | some minor =>
        have same : userString k3 addr len = userString k addr len := by
          unfold userString
          rw [accessed.userMem]
        have plain : 0 ∉ userString k3 addr len := by
          rw [same]
          exact string _ rfl
        rcases mknodPath_ends (settled.accessed accessed) bound (neat.accessed accessed) plain major minor with
          ⟨⟨r,k'⟩,ok⟩ | ⟨fail,none⟩
        · exact Or.inl ⟨r,k',ok⟩
        · refine Or.inr ⟨fail,fun q asked => ?_⟩
          unfold request at asked
          rw [← path,← value,← value'] at asked
          obtain rfl := Option.some.inj asked
          rw [service_accessed accessed,same] at none
          change ((service k).mknod (userString k addr len) major minor).map _ = _
          rw [none]
          rfl

theorem filewrite_total (safe : Safe Counted k) {fd : Fin nofile} {f : FileId} (named : k.proc.ofile fd = some f)
    (addr n : Nat) : ∃ r k', filewrite k f addr n = .ok (r,k') := by
  unfold filewrite
  dsimp only
  split
  · exact ⟨_,_,rfl⟩
  · rw [if_pos (safe.handle named).1]
    obtain ⟨⟨r,k'⟩,ok,_⟩ := @filewriteLoop_total n f k addr (n + 1) 0 (Nat.zero_le n) (by omega)
    exact ⟨r,k',ok⟩

/-- In every state of a run where blocks are left, each call but `exec` ends. -/
theorem Serving.ends (serving : Serving all kpgdir strict loose marks origin k) (bound : ∀ n, loose n → ∃ s, (s,n) ∈ marks)
    (neat : Safe Neat k) (enough : k.fs.exhausted = false) {call : Call} (asked : request k call ≠ none) : Ends data k call := by
  have settled := serving.settled enough
  have resident := serving.paged.resident
  cases call with
  | open_ => exact sysOpen_ends settled bound neat resident
  | mknod => exact sysMknod_ends settled bound neat resident
  | read =>
    obtain ⟨o,k1,fetched⟩ := argbuf_total resident
    refine Or.inl ?_
    unfold dispatch sysRead
    rw [fetched]
    cases o with
    | none => exact ⟨_,_,rfl⟩
    | some found => exact ⟨_,_,rfl⟩
  | write =>
    obtain ⟨o,k1,fetched⟩ := argbuf_total resident
    obtain ⟨accessed,buffer⟩ := (argbuf_accessed k).elim fetched
    refine Or.inl ?_
    unfold dispatch sysWrite
    rw [fetched]
    cases o with
    | none => exact ⟨_,_,rfl⟩
    | some found =>
      obtain ⟨f,p,n⟩ := found
      obtain ⟨_,fd,named⟩ := buffer f p n rfl
      rw [← accessed.proc] at named
      exact filewrite_total (serving.safe.accessed accessed) named p n
  | close =>
    obtain ⟨o,k1,fetched⟩ := argfd_total resident 0
    refine Or.inl ?_
    unfold dispatch sysClose
    rw [fetched]
    cases o with
    | none => exact ⟨_,_,rfl⟩
    | some found => exact ⟨_,_,rfl⟩
  | fstat =>
    obtain ⟨o,k1,fetched⟩ := argfd_total resident 0
    have resident1 : Resident k1 := resident.accessed ((argfd_accessed k 0).elim fetched).1
    refine Or.inl ?_
    unfold dispatch sysFstat
    rw [fetched]
    cases o with
    | none => exact ⟨_,_,rfl⟩
    | some found =>
      obtain ⟨fd,f⟩ := found
      obtain ⟨o,k2,fetched⟩ := argptr_total resident1 1 (by decide : (statSize : Int) < 2147483648)
      dsimp only
      rw [fetched]
      cases o with
      | none => exact ⟨_,_,rfl⟩
      | some p =>
        dsimp only
        split
        · exact ⟨_,_,rfl⟩
        · exact ⟨_,_,rfl⟩
  | exec => exact absurd rfl asked

end calls

section booted
variable {files : List Input} {data : Nat} {k₀ k : State} {q : Request}

theorem Booted.neat (booted : Booted files data k₀) (ragged : (files.length + 2) % 32 ≠ 0) : Safe Neat k₀ := by
  obtain ⟨few,_,image,disk,first,kpgdir,init,stack,size,m,made,device,_,_,ok⟩ := booted
  obtain ⟨m',kstack,pgdir,rfl⟩ := boot_uinit ok
  obtain ⟨t,lists,finished,blank⟩ := mkfs_blank (by omega) made
  have safe := uinitState_safe m' kstack pgdir disk stack
  have tidy := (@uinitState_tidy False _ _ _ disk lists finished (by omega) ragged blank device m' kstack pgdir stack).1
  exact ⟨safe.table,neat_start safe.inv tidy fun f used => absurd used (lt_irrefl 0)⟩

/-- On an image whose root directory has no hole, each call of every run but `exec` ends as
long as blocks are left, unless it has to make an inode and the service has none either. -/
theorem calls_return (booted : Booted files data k₀) (ragged : (files.length + 2) % 32 ≠ 0) (run : Run data k₀ k)
    (enough : k.fs.exhausted = false) {call : Call} (asked : request k call = some q) :
    (∃ r k', dispatch data k call = .ok (r,k')) ∨
      dispatch data k call = .error .nullInode ∧ (service k).serve q = .error .nullInode := by
  obtain ⟨⟨all,kpgdir,serving⟩,_⟩ := booted.serving
  have now := (serving.run root_marked booted.linked run).1
  have neat := (booted.neat ragged).run neat_guard run
  rcases now.ends root_marked neat enough (by rw [asked]; exact Option.some_ne_none q) with ended | ⟨fail,none⟩
  · exact Or.inl ended
  · exact Or.inr ⟨fail,none q asked⟩

/-- The first call of a program that has just been started. -/
theorem calls_return_first : ∃ k₀ r k', Booted [shortFile] 2148597760 k₀ ∧
    dispatch 2148597760 (program zeros k₀) .open_ = .ok (r,k') := by
  obtain ⟨k₀,booted,size,enough⟩ := booted_short
  have run : Run 2148597760 k₀ (program zeros k₀) := Relation.ReflTransGen.single (.user k₀ _ _ _ k₀.fs.stack)
  have asked := program_zeros (booted.resident Relation.ReflTransGen.refl) size
  rcases calls_return booted (by decide) run enough asked with ⟨r,k',ok⟩ | ⟨_,none⟩
  · exact ⟨k₀,r,k',booted,ok⟩
  · have served : (service k₀).serve (.open_ [] 0) = .error .nullInode := none
    obtain ⟨_,same⟩ := booted.serving
    rw [same] at served
    cases served

end booted

end Lxos.Files
