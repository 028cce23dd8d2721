import Lxos.Drivers.Ide

/-! Runs of requests and interrupts. The queue is the requests not yet answered, oldest
first; the command in progress is for the first of them. -/
namespace Lxos.Drivers
open Lxos.Bytes Lxos.Fs Lxos.Bio Lxos.Fifo

section transfer

/-- A buffer after its transfer. -/
def transferred (sectors : Nat → Nat → Block) (v : Buf) : Buf :=
  { v with
    data := if v.flags &&& bDirty = 0 then sectors (target v).1 (target v).2 else v.data
    flags := (v.flags ||| bValid) &&& ~~~bDirty }

/-- The disks after the transfer of a buffer. -/
def stored (sectors : Nat → Nat → Block) (v : Buf) : Nat → Nat → Block :=
  if v.flags &&& bDirty = 0 then sectors
  else fun d n => if d = (target v).1 ∧ n = (target v).2 then v.data else sectors d n

end transfer

variable {β : Type} [DecidableEq β]

/-- A request for the buffer is not answered yet. -/
def Ide.Queued (st : Ide β) (b : β) : Prop := ∃ q, st.queue.Holds q ∧ b ∈ q

inductive Act (β : Type)
  /-- The buffer as it is when it is queued. -/
  | request (b : β) (v : Buf)
  /-- The buffer that the handler finds at the head. -/
  | interrupt (b : Option β)
  /-- A buffer not queued changes hands. -/
  | edit (b : β) (v : Buf)

inductive Step : Ide β → Act β → Ide β → Prop
  | request (st st' : Ide β) (b : β) (fuel : Nat) (free : ¬st.Queued b)
      (wanted : (st.buf b).flags &&& bDirty ≠ 0 ∨ (st.buf b).flags &&& bValid = 0)
      (ok : iderw fuel st b = some st') : Step st (.request b (st.buf b)) st'
  | interrupt (st st' : Ide β) (ok : interrupt st = some st') : Step st (.interrupt st.queue.head) st'
  | edit (st : Ide β) (b : β) (v : Buf) (free : ¬st.Queued b) :
      Step st (.edit b v) { st with buf := Function.update st.buf b v }

inductive Run (st₀ : Ide β) : List (Act β) → Ide β → Prop
  | refl : Run st₀ [] st₀
  | tail {acts : List (Act β)} {st st' : Ide β} {act : Act β} (run : Run st₀ acts st) (step : Step st act st') :
      Run st₀ (acts ++ [act]) st'

/-- What was queued, oldest first. -/
def requests (acts : List (Act β)) : List (β × Buf) :=
  acts.filterMap fun
    | .request b v => some (b,v)
    | _ => none

/-- What the interrupts were taken for. -/
def answers (acts : List (Act β)) : List (Option β) :=
  acts.filterMap fun
    | .interrupt b => some b
    | _ => none

/-- The requests in `q` are queued. -/
structure Inv (st : Ide β) (q : List (β × Buf)) : Prop where
  queue : st.queue.Holds (q.map Prod.fst)
  distinct : (q.map Prod.fst).Nodup
  kept : ∀ r ∈ q, st.buf r.1 = r.2
  waiting : ∀ r ∈ q, ¬Done r.2
  command : st.command = q.head?.map fun r => order r.2

section steps
variable {st : Ide β} {q : List (β × Buf)} {b : β} {v : Buf}

omit [DecidableEq β] in
theorem note_eq (st : Ide β) (p : Prop) [Decidable p] (m : Message) : ∃ l, st.note p m = { st with printed := l } := by
  unfold Ide.note
  split
  · exact ⟨_,rfl⟩
  · exact ⟨_,rfl⟩

omit [DecidableEq β] in
theorem idestart_eq (idle : st.command = none) (b : β) :
    ∃ l, idestart st b = some { st with command := some (order (st.buf b)),printed := l } := by
  unfold idestart
  obtain ⟨l,same⟩ := note_eq st ((st.buf b).blockno ≥ fssize) .incorrectBlockno
  dsimp only
  rw [same]
  exact ⟨l,if_neg (by rw [idle]; exact Bool.false_ne_true)⟩

omit [DecidableEq β] in
theorem Inv.queued (inv : Inv st q) : st.Queued b ↔ b ∈ q.map Prod.fst := by
  constructor
  · rintro ⟨r,holds,inside⟩
    rw [← holds.unique inv.queue]
    exact inside
  · exact fun inside => ⟨_,inv.queue,inside⟩

theorem Inv.request (inv : Inv st q) (free : b ∉ q.map Prod.fst) (wanted : ¬Done (st.buf b)) {fuel : Nat}
    (enough : q.length < fuel) : ∃ st', iderw fuel st b = some st' ∧ Inv st' (q ++ [(b,st.buf b)]) ∧
      st'.buf = st.buf ∧ st'.sectors = st.sectors := by
  unfold iderw
  dsimp only
  obtain ⟨l,same⟩ := note_eq st (Done (st.buf b)) .nothingToDo
  rw [same]
  obtain ⟨l,same⟩ := note_eq { st with printed := l } ((st.buf b).dev ≠ 0 ∧ !st.havedisk1) .noDisk1
  dsimp only
  rw [same]
  obtain ⟨p,walked,holds⟩ := inv.queue.enqueue inv.distinct free (by rw [List.length_map]; exact enough)
  dsimp only
  rw [walked]
  dsimp only
  have names : (q ++ [(b,st.buf b)]).map Prod.fst = q.map Prod.fst ++ [b] := List.map_append
  have distinct : ((q ++ [(b,st.buf b)]).map Prod.fst).Nodup := by
    rw [names]
    refine List.nodup_append.mpr ⟨inv.distinct,List.nodup_singleton b,fun c inside d last same => ?_⟩
    rw [same,List.mem_singleton.mp last] at inside
    exact free inside
  have kept : ∀ r ∈ q ++ [(b,st.buf b)], st.buf r.1 = r.2 := by
    intro r inside
    rcases List.mem_append.mp inside with old | new
    · exact inv.kept r old
    · rw [List.mem_singleton.mp new]
  have waiting : ∀ r ∈ q ++ [(b,st.buf b)], ¬Done r.2 := by
    intro r inside
    rcases List.mem_append.mp inside with old | new
    · exact inv.waiting r old
    · rw [List.mem_singleton.mp new]
      exact wanted
  cases q with
  | nil =>
    have idle : st.command = none := inv.command
    rw [if_pos holds.front]
    generalize (st.queue.store (.next b) none).store p (some b) = queue at holds ⊢
    obtain ⟨l',started⟩ := @idestart_eq β { st with queue := queue,printed := l } idle b
    rw [started]
    exact ⟨_,rfl,⟨holds,distinct,kept,waiting,rfl⟩,rfl,rfl⟩
  | cons r q =>
    have other : ¬((st.queue.store (.next b) none).store p (some b)).head = some b := by
      intro same
      have front := holds.front
      rw [same] at front
      exact free (List.mem_cons.mpr (Or.inl (Option.some.inj front)))
    rw [if_neg other]
    refine ⟨_,rfl,⟨?_,distinct,kept,waiting,inv.command⟩,rfl,rfl⟩
    rw [names]
    exact holds

theorem Inv.request_enough (inv : Inv st q) (free : b ∉ q.map Prod.fst) {fuel : Nat} {st' : Ide β}
    (ok : iderw fuel st b = some st') : q.length < fuel := by
  by_contra short
  have cleared : Linked (st.queue.store (.next b) none).next ((st.queue.store (.next b) none).load .head) (q.map Prod.fst) :=
    inv.queue.store free none
  have stuck : (st.queue.store (.next b) none).walk fuel .head = none :=
    walk_short cleared (by rw [List.length_map]; exact Nat.le_of_not_lt short)
  unfold iderw at ok
  dsimp only at ok
  obtain ⟨l,same⟩ := note_eq st (Done (st.buf b)) .nothingToDo
  rw [same] at ok
  obtain ⟨l,same⟩ := note_eq { st with printed := l } ((st.buf b).dev ≠ 0 ∧ !st.havedisk1) .noDisk1
  dsimp only at ok
  rw [same] at ok
  dsimp only at ok
  rw [stuck] at ok
  cases ok

omit [DecidableEq β] in
/-- What the controller does for a buffer. -/
theorem finish_eq (st : Ide β) (v : Buf) : ∃ port, finish st (order v) =
      { st with command := none,port := port,sectors := stored st.sectors v } ∧
    (if v.flags &&& bDirty = 0 then port else v.data) = (transferred st.sectors v).data := by
  have same := taskFile_target v
  unfold order stored transferred
  by_cases clean : v.flags &&& bDirty = 0
  · simp only [clean,if_true]
    refine ⟨_,rfl,?_⟩
    rw [← same]
  · simp only [clean,if_false]
    refine ⟨v.data,?_,trivial⟩
    rw [← same]
    rfl

/-- The oldest request is answered, and the next one started. -/
theorem Inv.interrupt (inv : Inv st ((b,v) :: q)) : ∃ st', interrupt st = some st' ∧ Inv st' q ∧
    st'.buf = Function.update st.buf b (transferred st.sectors v) ∧ st'.sectors = stored st.sectors v := by
  obtain ⟨absent,distinct⟩ := List.nodup_cons.mp inv.distinct
  have here : st.buf b = v := inv.kept _ List.mem_cons_self
  have busy : st.command = some (order v) := inv.command
  obtain ⟨port,finished,data⟩ := finish_eq st v
  unfold Drivers.interrupt ideint_callback
  rw [busy]
  dsimp only
  rw [finished]
  dsimp only
  rw [inv.queue.front]
  dsimp only
  rw [here,data]
  have rest := inv.queue.pop
  have kept : ∀ r ∈ q, Function.update st.buf b (transferred st.sectors v) r.1 = r.2 := by
    intro r inside
    have other : r.1 ≠ b := ne_of_mem_of_not_mem (List.mem_map_of_mem inside) absent
    rw [Function.update_of_ne other]
    exact inv.kept r (List.mem_cons_of_mem _ inside)
  have waiting (r : β × Buf) (inside : r ∈ q) : ¬Done r.2 := inv.waiting r (List.mem_cons_of_mem _ inside)
  generalize st.queue.pop b = queue at rest ⊢
  have moved : ({ v with data := (transferred st.sectors v).data,flags := (v.flags ||| bValid) &&& ~~~bDirty } : Buf) =
    transferred st.sectors v := rfl
  rw [moved]
  cases q with
  | nil =>
    have last : queue.head = none := rest
    rw [last]
    exact ⟨_,rfl,⟨rest,distinct,kept,waiting,rfl⟩,rfl,rfl⟩
  | cons r q =>
    rw [rest.front]
    dsimp only
    obtain ⟨l,started⟩ := @idestart_eq β { st with
      queue := queue
      buf := Function.update st.buf b (transferred st.sectors v)
      command := none
      port := port
      sectors := stored st.sectors v } rfl r.1
    rw [started]
    dsimp only
    rw [kept r List.mem_cons_self]
    exact ⟨_,rfl,⟨rest,distinct,kept,waiting,rfl⟩,rfl,rfl⟩

theorem Inv.edit (inv : Inv st q) (free : b ∉ q.map Prod.fst) (v : Buf) :
    Inv { st with buf := Function.update st.buf b v } q := by
  refine ⟨inv.queue,inv.distinct,fun r inside => ?_,inv.waiting,inv.command⟩
  exact (Function.update_of_ne (ne_of_mem_of_not_mem (List.mem_map_of_mem inside) free) _ _).trans (inv.kept r inside)

end steps

section runs
variable {st₀ st st' : Ide β} {acts : List (Act β)} {act : Act β}

/-- The requests answered so far and those in the queue are all that were made. -/
structure History (st₀ : Ide β) (acts : List (Act β)) (st : Ide β) (done q : List (β × Buf)) : Prop where
  inv : Inv st q
  all : requests acts = done ++ q
  answered : answers acts = done.map fun r => some r.1
  sectors : st.sectors = done.foldl (fun sectors r => stored sectors r.2) st₀.sectors

theorem History.step {done q : List (β × Buf)} (history : History st₀ acts st done q) (step : Step st act st') :
    ∃ done q, History st₀ (acts ++ [act]) st' done q := by
  obtain ⟨inv,all,answered,sectors⟩ := history
  have later (a : Act β) : requests (acts ++ [a]) = requests acts ++ requests [a] ∧
      answers (acts ++ [a]) = answers acts ++ answers [a] := ⟨List.filterMap_append,List.filterMap_append⟩
  cases step with
  | request _ b fuel free wanted ok =>
    have outside : b ∉ q.map Prod.fst := fun inside => free (inv.queued.mpr inside)
    obtain ⟨next,queued,inv',_,still⟩ := inv.request outside ((wanted_iff _).mpr wanted) (inv.request_enough outside ok)
    obtain rfl := Option.some.inj (queued.symm.trans ok)
    refine ⟨done,q ++ [(b,st.buf b)],inv',?_,?_,still.trans sectors⟩
    · rw [(later _).1,all,List.append_assoc]
      rfl
    · rw [(later _).2,answered]
      exact List.append_nil _
  | interrupt _ ok =>
    cases q with
    | nil =>
      have idle : st.command = none := inv.command
      unfold interrupt at ok
      rw [idle] at ok
      cases ok
    | cons r q =>
      obtain ⟨b,v⟩ := r
      obtain ⟨next,taken,inv',_,moved⟩ := inv.interrupt
      obtain rfl := Option.some.inj (taken.symm.trans ok)
      refine ⟨done ++ [(b,v)],q,inv',?_,?_,?_⟩
      · rw [(later _).1,all,List.append_assoc,List.append_assoc]
        exact congrArg (done ++ ·) (List.append_nil _)
      · rw [(later _).2,answered,inv.queue.front,List.map_append]
        rfl
      · rw [moved,sectors,List.foldl_append]
        rfl
  | edit b v free =>
    refine ⟨done,q,inv.edit (fun inside => free (inv.queued.mpr inside)) v,?_,?_,sectors⟩
    · rw [(later _).1,all]
      exact List.append_nil _
    · rw [(later _).2,answered]
      exact List.append_nil _

theorem History.run (empty : st₀.queue.head = none) (idle : st₀.command = none) (run : Run st₀ acts st) :
    ∃ done q, History st₀ acts st done q := by
  induction run with
  | refl =>
    have inv : Inv st₀ [] := by
      refine ⟨empty,List.nodup_nil,fun r absurd => ?_,fun r absurd => ?_,idle⟩
      · cases absurd
      · cases absurd
    exact ⟨[],[],inv,rfl,rfl,rfl⟩
  | tail _ step ih =>
    obtain ⟨done,q,history⟩ := ih
    exact history.step step

/-- In every state of a run the queue is the requests not yet answered, in their order,
and the command in progress is for the first of them. Its interrupt transfers that
buffer, which ends the wait for it, and leaves every other buffer and sector as it was. -/
theorem requests_answered (empty : st₀.queue.head = none) (idle : st₀.command = none) (run : Run st₀ acts st) :
    ∃ done q : List (β × Buf),
      st.queue.Holds (q.map Prod.fst) ∧ (q.map Prod.fst).Nodup ∧
      st.command = q.head?.map (fun r => order r.2) ∧
      requests acts = done ++ q ∧ answers acts = done.map (fun r => some r.1) ∧
      st.sectors = done.foldl (fun sectors r => stored sectors r.2) st₀.sectors ∧
      (∀ r ∈ q, st.buf r.1 = r.2 ∧ ¬Done r.2) ∧
      (∀ b v rest, q = (b,v) :: rest → ∃ st', interrupt st = some st' ∧ Done (st'.buf b) ∧
        (∀ c, c ≠ b → st'.buf c = st.buf c) ∧
        (v.flags &&& bDirty = 0 → st'.sectors = st.sectors ∧
          (v.blockno < 268435456 → (st'.buf b).data = st.sectors (v.dev % 2) v.blockno)) ∧
        (v.flags &&& bDirty ≠ 0 → (st'.buf b).data = v.data ∧
          (v.blockno < 268435456 → ∀ d n, st'.sectors d n =
            if d = v.dev % 2 ∧ n = v.blockno then v.data else st.sectors d n))) ∧
      ∀ b, ¬st.Queued b → (st.buf b).flags &&& bDirty ≠ 0 ∨ (st.buf b).flags &&& bValid = 0 →
        ∃ fuel st', iderw fuel st b = some st' ∧ st'.buf = st.buf ∧ st'.sectors = st.sectors := by
  obtain ⟨done,q,inv,all,answered,sectors⟩ := History.run empty idle run
  refine ⟨done,q,inv.queue,inv.distinct,inv.command,all,answered,sectors,
    fun r inside => ⟨inv.kept r inside,inv.waiting r inside⟩,?_,?_⟩
  · rintro b v rest rfl
    obtain ⟨st',taken,_,bufs,moved⟩ := inv.interrupt
    have here : st'.buf b = transferred st.sectors v := by rw [bufs,Function.update_self]
    refine ⟨st',taken,?_,fun c other => by rw [bufs,Function.update_of_ne other],fun clean => ⟨?_,fun small => ?_⟩,
      fun dirty => ⟨?_,fun small d n => ?_⟩⟩
    · rw [here]
      exact done_transferred v _
    · rw [moved,stored,if_pos clean]
    · rw [here]
      exact (if_pos clean).trans (by rw [target_eq v small])
    · rw [here]
      exact if_neg dirty
    · rw [moved,stored,if_neg dirty,target_eq v small]
  · intro b free wanted
    have outside : b ∉ q.map Prod.fst := fun inside => free (inv.queued.mpr inside)
    obtain ⟨st',queued,_,bufs,still⟩ := inv.request outside ((wanted_iff _).mpr wanted) (Nat.lt_succ_self q.length)
    exact ⟨_,st',queued,bufs,still⟩

/-- Two buffers, one to write and one to read the same sector, and the first interrupt. -/
def pair : Ide Bool where
  buf := fun b => ⟨if b then bDirty else 0,1,5,1,fun _ => if b then 7 else 0⟩
  queue := ⟨none,fun _ => none⟩
  havedisk1 := true
  command := none
  port := zeros
  sectors := fun _ _ => zeros
  printed := []

theorem requests_answered_pair : ∃ st st', Run pair [.request true (pair.buf true)] st ∧ interrupt st = some st' ∧
    Done (st'.buf true) := by
  have free : ¬pair.Queued true := by
    rintro ⟨q,holds,inside⟩
    cases q with
    | nil => cases inside
    | cons c q => exact nomatch (holds.1 : none = some c)
  have asked : iderw 1 pair true = some _ := rfl
  have run : Run pair [.request true (pair.buf true)] _ :=
    Run.tail Run.refl (Step.request pair _ true 1 free (Or.inl (by decide)) asked)
  obtain ⟨done,q,_,_,_,all,answered,_,_,next,_⟩ := requests_answered rfl rfl run
  have none_done : done = [] := List.map_eq_nil_iff.mp answered.symm
  rw [none_done] at all
  obtain ⟨st',taken,finished,_⟩ := next true (pair.buf true) [] all.symm
  exact ⟨_,st',run,taken,finished⟩

end runs

end Lxos.Drivers
