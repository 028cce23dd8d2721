import Lxos.Drivers.Requests

/-! The disk driver with the status of the drive. A command can fail, and the drive then
says so at port `0x1f7`; the handler looks there before a read, and goes on either way. -/
namespace Lxos.Drivers.Status
open Lxos.Bytes Lxos.Fs Lxos.Bio Lxos.Fifo

abbrev ideBsy : BitVec 8 := 128
abbrev ideDrdy : BitVec 8 := 64
abbrev ideDf : BitVec 8 := 32
abbrev ideErr : BitVec 8 := 1

/-- `IDE_DF` or `IDE_ERR` is set. -/
def Failed (r : BitVec 8) : Prop := r &&& (ideDf ||| ideErr) ≠ 0

instance (r : BitVec 8) : Decidable (Failed r) := inferInstanceAs (Decidable (_ ≠ _))

/-- The first status, of those that the port gives one after the other, with the drive ready. -/
def settled : List (BitVec 8) → Option (BitVec 8)
  | [] => none
  | r :: values => if r &&& (ideBsy ||| ideDrdy) ≠ ideDrdy then settled values else some r

def idewait (checkerr : Bool) (values : List (BitVec 8)) : Option Int :=
  (settled values).map fun r => if checkerr ∧ Failed r then -1 else 0

variable {β : Type} [DecidableEq β]

def ideint_callback (st : Ide β) (values : List (BitVec 8)) : Option (Ide β) :=
  match st.queue.head with
  | none => some st
  | some b =>
    let v := st.buf b
    -- a buffer to write is not waited for
    match (if v.flags &&& bDirty = 0 then idewait true values else some (-1)) with
    | none => none
    | some r =>
      let data := if r ≥ 0 then st.port else v.data
      let st := { st with
        queue := st.queue.pop b
        buf := Function.update st.buf b { v with data := data,flags := (v.flags ||| bValid) &&& ~~~bDirty } }
      match st.queue.head with
      | none => some st
      | some b => idestart st b

/-- The controller ends its command. One that failed transferred nothing. -/
def finish (st : Ide β) (c : Command) (r : BitVec 8) : Ide β :=
  if Failed r then { st with command := none } else Drivers.finish st c

/-- The one interrupt of a command, and what the port gives from then on. -/
def interrupt (st : Ide β) (values : List (BitVec 8)) : Option (Ide β) :=
  match st.command with
  | none => none
  | some c =>
    match settled values with
    | none => none
    | some r => ideint_callback (finish st c r) values

/-- No error is found. -/
def Good (values : List (BitVec 8)) : Prop := ∀ r, settled values = some r → ¬Failed r

inductive Act (β : Type)
  /-- The buffer as the caller of `iderw` filled it. -/
  | request (b : β) (v : Buf)
  | interrupt (values : List (BitVec 8))

/-- The buffer cache asks for a buffer that is to be read or written, and which is the only
one for its block. -/
inductive Step : Ide β → Act β → Ide β → Prop
  | request (st st' : Ide β) (b : β) (v : Buf) (fuel : Nat) (free : ¬st.Queued b) (wanted : ¬Done v)
      (alone : ∀ c, c ≠ b → Done (st.buf c) ∨ st.Queued c → target (st.buf c) ≠ target v)
      (ok : iderw fuel { st with buf := Function.update st.buf b v } b = some st') : Step st (.request b v) st'
  | interrupt (st st' : Ide β) (values : List (BitVec 8)) (ok : interrupt st values = some st') :
      Step st (.interrupt values) st'

inductive Run (st₀ : Ide β) : List (Act β) → Ide β → Prop
  | refl : Run st₀ [] st₀
  | tail {acts : List (Act β)} {st st' : Ide β} {act : Act β} (run : Run st₀ acts st) (step : Step st act st') :
      Run st₀ (acts ++ [act]) st'

/-- A buffer that is valid and clean holds what its sector holds. -/
def Truthful (st : Ide β) : Prop := ∀ b, Done (st.buf b) → (st.buf b).data = st.sectors (target (st.buf b)).1 (target (st.buf b)).2

section steps
variable {st st' : Ide β} {q : List (β × Buf)} {b : β} {v : Buf} {values : List (BitVec 8)}

/-- Without an error the handler is the one of `Drivers`. -/
theorem interrupt_good (good : Good values) (ready : settled values ≠ none) : interrupt st values = Drivers.interrupt st := by
  cases found : settled values with
  | none => exact absurd found ready
  | some r =>
    have fine := good r found
    have waited : idewait true values = some 0 := by
      unfold idewait
      rw [found,Option.map_some,if_neg fun h => fine h.2]
    unfold interrupt Drivers.interrupt
    rw [found]
    cases st.command with
    | none => rfl
    | some c =>
      unfold finish
      dsimp only
      rw [if_neg fine]
      unfold ideint_callback Drivers.ideint_callback
      cases (Drivers.finish st c).queue.head with
      | none => rfl
      | some b =>
        dsimp only
        rw [waited]
        by_cases clean : ((Drivers.finish st c).buf b).flags &&& bDirty = 0
        · rw [if_pos clean,if_pos clean]
          rfl
        · rw [if_neg clean,if_neg clean]
          rfl

/-- The requests in `q` are queued, and no other buffer is for one of their sectors. -/
structure Kept (st : Ide β) (q : List (β × Buf)) : Prop where
  inv : Inv st q
  truthful : Truthful st
  apart : ∀ r ∈ q, ∀ c, c ≠ r.1 → Done (st.buf c) ∨ c ∈ q.map Prod.fst → target (st.buf c) ≠ target r.2

theorem Kept.request (kept : Kept st q) (free : ¬st.Queued b) (wanted : ¬Done v)
    (alone : ∀ c, c ≠ b → Done (st.buf c) ∨ st.Queued c → target (st.buf c) ≠ target v) {fuel : Nat}
    (ok : iderw fuel { st with buf := Function.update st.buf b v } b = some st') : Kept st' (q ++ [(b,v)]) := by
  have outside : b ∉ q.map Prod.fst := fun inside => free (kept.inv.queued.mpr inside)
  have filled := kept.inv.edit outside v
  have here : Function.update st.buf b v b = v := Function.update_self _ _ _
  obtain ⟨next,asked,inv,bufs,sectors⟩ := filled.request outside (fun done => wanted (here ▸ done)) (filled.request_enough outside ok)
  obtain rfl := Option.some.inj (asked.symm.trans ok)
  dsimp only at inv bufs sectors
  rw [here] at inv
  have other (c : β) (away : c ≠ b) : next.buf c = st.buf c := by
    rw [bufs]
    exact Function.update_of_ne away _ _
  have self : next.buf b = v := by
    rw [bufs]
    exact here
  refine ⟨inv,fun c done => ?_,fun r inside c away busy => ?_⟩
  · by_cases same : c = b
    · rw [same,self] at done
      exact absurd done wanted
    · rw [other c same] at done ⊢
      rw [sectors]
      exact kept.truthful c done
  · have names : (q ++ [(b,v)]).map Prod.fst = q.map Prod.fst ++ [b] := List.map_append
    rw [names] at busy
    rcases List.mem_append.mp inside with old | new
    · by_cases same : c = b
      · have queued : st.Queued r.1 := kept.inv.queued.mpr (List.mem_map_of_mem old)
        rw [same,self]
        have fresh := alone r.1 (fun h => away (same.trans h.symm)) (Or.inr queued)
        rw [kept.inv.kept r old] at fresh
        exact Ne.symm fresh
      · rw [other c same] at busy ⊢
        refine kept.apart r old c away (busy.imp_right fun member => ?_)
        rcases List.mem_append.mp member with before | last
        · exact before
        · exact absurd (List.mem_singleton.mp last) same
    · obtain rfl := List.mem_singleton.mp new
      rw [other c away] at busy ⊢
      refine alone c away (busy.imp_right fun member => ?_)
      rcases List.mem_append.mp member with before | last
      · exact kept.inv.queued.mpr before
      · exact absurd (List.mem_singleton.mp last) away

/-- The buffer of the oldest request holds its sector after the transfer. -/
theorem transferred_truth (sectors : Nat → Nat → Block) (v : Buf) :
    (transferred sectors v).data = stored sectors v (target v).1 (target v).2 := by
  unfold transferred stored
  dsimp only
  split
  · rfl
  · exact (if_pos ⟨rfl,rfl⟩).symm

theorem stored_other (sectors : Nat → Nat → Block) {t : Nat × Nat} (away : t ≠ target v) :
    stored sectors v t.1 t.2 = sectors t.1 t.2 := by
  unfold stored
  split
  · rfl
  · exact if_neg fun same => away (Prod.ext same.1 same.2)

theorem Kept.interrupt (kept : Kept st q) (good : Good values) (ok : interrupt st values = some st') :
    ∃ q', Kept st' q' := by
  have ready : settled values ≠ none := by
    intro waiting
    unfold Status.interrupt at ok
    rw [waiting] at ok
    split at ok
    all_goals cases ok
  rw [interrupt_good good ready] at ok
  cases q with
  | nil =>
    have idle : st.command = none := kept.inv.command
    unfold Drivers.interrupt at ok
    rw [idle] at ok
    cases ok
  | cons r q =>
    obtain ⟨b,v⟩ := r
    obtain ⟨next,taken,inv,bufs,sectors⟩ := kept.inv.interrupt
    obtain rfl := Option.some.inj (taken.symm.trans ok)
    have absent := (List.nodup_cons.mp kept.inv.distinct).1
    have other (c : β) (away : c ≠ b) : next.buf c = st.buf c := by rw [bufs,Function.update_of_ne away]
    have self : next.buf b = transferred st.sectors v := by rw [bufs,Function.update_self]
    have apart := kept.apart (b,v) List.mem_cons_self
    refine ⟨q,inv,fun c done => ?_,fun r inside c away busy => ?_⟩
    · rw [sectors]
      by_cases same : c = b
      · rw [same,self]
        exact transferred_truth st.sectors v
      · rw [other c same] at done ⊢
        rw [stored_other _ (apart c same (Or.inl done))]
        exact kept.truthful c done
    · by_cases same : c = b
      · have different : r.1 ≠ b := ne_of_mem_of_not_mem (List.mem_map_of_mem inside) absent
        have old := apart r.1 different (Or.inr (List.mem_cons_of_mem _ (List.mem_map_of_mem inside)))
        rw [kept.inv.kept r (List.mem_cons_of_mem _ inside)] at old
        rw [same,self]
        exact Ne.symm old
      · rw [other c same] at busy ⊢
        exact kept.apart r (List.mem_cons_of_mem _ inside) c away (busy.imp_right (List.mem_cons_of_mem _))

end steps

section runs
variable {st₀ st : Ide β} {acts : List (Act β)}

/-- In every run in which no interrupt finds an error, a valid and clean buffer holds what its
sector holds. -/
theorem run_truthful (empty : st₀.queue.head = none) (idle : st₀.command = none) (start : Truthful st₀)
    (run : Run st₀ acts st) (good : ∀ values, .interrupt values ∈ acts → Good values) : Truthful st := by
  have whole : ∃ q, Kept st q := by
    induction run with
    | refl =>
      refine ⟨[],⟨empty,List.nodup_nil,fun r absurd => ?_,fun r absurd => ?_,idle⟩,start,fun r absurd => ?_⟩
      all_goals cases absurd
    | tail _ step ih =>
      obtain ⟨q,kept⟩ := ih fun values inside => good values (List.mem_append_left _ inside)
      cases step with
      | request _ b v fuel free wanted alone ok => exact ⟨_,kept.request free wanted alone ok⟩
      | interrupt _ values ok =>
        exact kept.interrupt (good values (List.mem_append_right _ List.mem_cons_self)) ok
  obtain ⟨_,kept⟩ := whole
  exact kept.truthful

end runs

/-- Buffers that were never used, and a disk with sevens. -/
def fresh : Ide Bool where
  buf := fun _ => ⟨0,0,0,0,zeros⟩
  queue := ⟨none,fun _ => none⟩
  havedisk1 := true
  command := none
  port := zeros
  sectors := fun _ _ _ => 7
  printed := []

theorem fresh_inv : Inv fresh [] :=
  ⟨rfl,List.nodup_nil,fun _ absurd => (nomatch absurd),fun _ absurd => (nomatch absurd),rfl⟩

theorem fresh_idle (b : Bool) : ¬Done (fresh.buf b) := by
  change ¬Done ⟨0,0,0,0,zeros⟩
  decide

theorem fresh_request {v : Buf} (wanted : ¬Done v) : ∃ st, Step fresh (.request true v) st ∧ Inv st [(true,v)] ∧
    st.sectors = fresh.sectors := by
  have free (b : Bool) : ¬fresh.Queued b := fun queued => nomatch fresh_inv.queued.mp queued
  have filled := fresh_inv.edit (b := true) List.not_mem_nil v
  have here : Function.update fresh.buf true v true = v := Function.update_self _ _ _
  have enough : ([] : List (Bool × Buf)).length < 1 := Nat.succ_pos 0
  obtain ⟨st,ok,inv,_,sectors⟩ := filled.request List.not_mem_nil (fun done => wanted (here ▸ done)) enough
  dsimp only at inv sectors
  rw [here,List.nil_append] at inv
  exact ⟨st,.request fresh st true v 1 (free true) wanted (fun c _ busy => (busy.elim (fresh_idle c) (free c)).elim) ok,
    inv,sectors⟩

/-- A first read that succeeds. -/
theorem run_truthful_fresh : ∃ st, Run fresh [.request true ⟨0,1,5,1,zeros⟩,.interrupt [64]] st ∧ Truthful st := by
  obtain ⟨st,step,inv,_⟩ := @fresh_request ⟨0,1,5,1,zeros⟩ (by decide)
  have good : Good [64] := by
    intro r found
    obtain rfl : r = 64 := (Option.some.inj found).symm
    decide
  obtain ⟨st',taken,_⟩ := inv.interrupt
  rw [← interrupt_good good (by decide)] at taken
  have run := Run.tail (Run.tail Run.refl step) (.interrupt st st' [64] taken)
  refine ⟨st',run,run_truthful rfl rfl (fun b done => absurd done (fresh_idle b)) run fun values inside => ?_⟩
  rcases List.mem_cons.mp inside with first | rest
  · cases first
  · obtain rfl := Act.interrupt.inj (List.mem_singleton.mp rest)
    exact good

/-- A first request whose command fails, so that the drive answers `IDE_DRDY | IDE_ERR`. -/
theorem fresh_failed {v : Buf} (wanted : ¬Done v) (differs : v.data ≠ fresh.sectors (target v).1 (target v).2) :
    ∃ st, Run fresh [.request true v,.interrupt [65]] st ∧ ¬Truthful st := by
  obtain ⟨st,step,inv,sectors⟩ := fresh_request wanted
  have self : st.buf true = v := inv.kept _ List.mem_cons_self
  have command : st.command = some (order v) := inv.command
  have last : (st.queue.pop true).head = none := inv.queue.pop
  have taken : interrupt st [65] = some { st with
      command := none
      queue := st.queue.pop true
      buf := Function.update st.buf true { v with flags := (v.flags ||| bValid) &&& ~~~bDirty } } := by
    have waited : (if v.flags &&& bDirty = 0 then idewait true [65] else some (-1)) = some (-1) := by
      split
      · rfl
      · rfl
    have settles : settled [65] = some 65 := rfl
    unfold interrupt finish
    rw [command,settles]
    dsimp only
    rw [if_pos (by decide)]
    unfold ideint_callback
    dsimp only
    rw [inv.queue.front]
    dsimp only
    rw [self,waited]
    dsimp only
    rw [last,if_neg (by decide)]
  refine ⟨_,Run.tail (Run.tail Run.refl step) (.interrupt st _ [65] taken),fun truthful => ?_⟩
  have claim := truthful true
  dsimp only at claim
  rw [Function.update_self,sectors] at claim
  exact differs (claim (done_transferred v v.data))

/-- A failed read is marked valid, and a failed write clean. -/
theorem truth_broken : (∃ st, Run fresh [.request true ⟨0,1,5,1,zeros⟩,.interrupt [65]] st ∧ ¬Truthful st) ∧
    ∃ st, Run fresh [.request true ⟨bDirty,1,5,1,zeros⟩,.interrupt [65]] st ∧ ¬Truthful st := by
  have differs : zeros ≠ fresh.sectors 1 5 := fun same => absurd (congrFun same 0) (by decide)
  exact ⟨fresh_failed (by decide) differs,fresh_failed (by decide) differs⟩

end Lxos.Drivers.Status
