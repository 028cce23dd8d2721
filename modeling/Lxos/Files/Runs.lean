import Lxos.Files.Delivery
import Lxos.Files.Growth
import Lxos.Library.Simulation

/-! Runs of the kernel as its program sees them: what it asks for, and what it then has. The
file service answers the same. -/
namespace Lxos.Files
open Lxos.Bytes Lxos.Fs Lxos.Kernel Lxos.Outcome Lxos.Places Lxos.Simulation

/-- A step with what was asked of the service, what was returned and what the program finds. -/
inductive Observed (data : Nat) : State → Option (Request × (Int × Output)) → State → Prop
  | user (k : State) (frame : Page → Buffer) (refused : List Bool) (esp : Nat) (stack : Buffer) : Observed data k none { k with
      vm := { k.vm with frame := frame,refused := refused }
      proc := { k.proc with esp := esp }
      fs := { k.fs with stack := stack } }
  | silent {k k' : State} {call : Call} {r : Int} (ok : dispatch data k call = .ok (r,k')) (silent : request k call = none) :
      Observed data k none k'
  | answered {k k' : State} {call : Call} {r : Int} {q : Request} (ok : dispatch data k call = .ok (r,k'))
      (asked : request k call = some q) : Observed data k (some (q,(r,observed k' ((word k 1).getD 0) r q))) k'

/-- A run with all that was asked and answered. -/
def Session (data : Nat) : State → List (Request × (Int × Output)) → State → Prop := Traced (Observed data)

section steps
variable {data : Nat} {k k' : State} {x : Option (Request × (Int × Output))} {log : List (Request × (Int × Output))}

theorem Observed.step (observed : Observed data k x k') : Step data k k' := by
  cases observed with
  | user frame refused esp stack => exact .user k frame refused esp stack
  | silent ok _ => exact .call k k' _ _ ok
  | answered ok _ => exact .call k k' _ _ ok

theorem Session.run (session : Session data k log k') : Run data k k' := by
  induction session with
  | start => exact Relation.ReflTransGen.refl
  | silent _ last ih => exact ih.tail last.step
  | answered _ last ih => exact ih.tail last.step

/-- Every run can be observed. -/
theorem session_of_run (run : Run data k k') : ∃ log, Session data k log k' := by
  induction run with
  | refl => exact ⟨[],.start⟩
  | @tail k1 k2 _ step ih =>
    obtain ⟨log,before⟩ := ih
    cases step with
    | user frame refused esp stack => exact ⟨log,.silent before (.user k1 frame refused esp stack)⟩
    | call _ call r ok =>
      cases asked : request k1 call with
      | none => exact ⟨log,.silent before (.silent ok asked)⟩
      | some q => exact ⟨_,.answered before (.answered ok asked)⟩

end steps

section text
variable {k : State} {n : Nat} {path : List Byte} {call : Call} {q : Request}

theorem text_string (here : text k n = some path) : 0 ∉ path := by
  obtain ⟨addr,_,here⟩ := Option.bind_eq_some_iff.mp here
  obtain ⟨len,found,rfl⟩ := Option.map_eq_some_iff.mp here
  intro zero
  obtain ⟨j,low,byte⟩ := List.mem_map.mp zero
  have before := (List.find?_range_eq_some.mp found).2.2 j (List.mem_range.mp low)
  simp only [Bool.not_eq_true',decide_eq_false_iff_not] at before
  exact before byte

theorem request_proper (asked : request k call = some q) : q.Proper := by
  by_cases real : q = .refused
  · rw [real]
    trivial
  cases call with
  | open_ =>
    have here := asked_some (Option.some.inj asked) real
    obtain ⟨path,string,here⟩ := Option.bind_eq_some_iff.mp here
    obtain ⟨omode,_,rfl⟩ := Option.map_eq_some_iff.mp here
    exact text_string string
  | mknod =>
    have here := asked_some (Option.some.inj asked) real
    obtain ⟨path,string,here⟩ := Option.bind_eq_some_iff.mp here
    obtain ⟨major,_,here⟩ := Option.bind_eq_some_iff.mp here
    obtain ⟨minor,_,rfl⟩ := Option.map_eq_some_iff.mp here
    exact text_string string
  | read =>
    have here := asked_some (Option.some.inj asked) real
    obtain ⟨fd,_,here⟩ := Option.bind_eq_some_iff.mp here
    obtain ⟨m,_,here⟩ := Option.bind_eq_some_iff.mp here
    obtain ⟨p,_,rfl⟩ := Option.map_eq_some_iff.mp here
    trivial
  | write =>
    have here := asked_some (Option.some.inj asked) real
    obtain ⟨fd,_,here⟩ := Option.bind_eq_some_iff.mp here
    obtain ⟨m,_,here⟩ := Option.bind_eq_some_iff.mp here
    obtain ⟨p,_,rfl⟩ := Option.map_eq_some_iff.mp here
    trivial
  | close =>
    have here := asked_some (Option.some.inj asked) real
    obtain ⟨fd,_,rfl⟩ := Option.map_eq_some_iff.mp here
    trivial
  | fstat =>
    have here := asked_some (Option.some.inj asked) real
    obtain ⟨fd,_,here⟩ := Option.bind_eq_some_iff.mp here
    obtain ⟨p,_,rfl⟩ := Option.map_eq_some_iff.mp here
    trivial
  | exec => cases asked

end text

/-- What holds of every state of a run. -/
structure Serving (all : List Page) (kpgdir : Page) (strict : Prop) (loose : Nat → Prop) (marks : List (Slot × Nat))
    (origin : FsState) (k : State) : Prop where
  paged : Paged all kpgdir k
  safe : Safe Counted k
  settled : k.fs.exhausted = false → Settled strict loose marks origin k
  sound : k.fs.exhausted = false → (service k).Sound
  roomy : k.fs.exhausted = false → (service k).Roomy

section serving
variable {all : List Page} {kpgdir : Page} {strict : Prop} {loose : Nat → Prop} {marks : List (Slot × Nat)} {origin : FsState}
  {data : Nat} {k k' : State} {call : Call} {r : Int} {q : Request} {log : List (Request × (Int × Output))}

theorem Serving.back (serving : Serving all kpgdir strict loose marks origin k) (step : Step data k k')
    (enough : k'.fs.exhausted = false) : k.fs.exhausted = false :=
  exhausted_of_suffix (Safe.trace serving.safe (Relation.ReflTransGen.single step)) enough

theorem Serving.answers (serving : Serving all kpgdir strict loose marks origin k) (bound : ∀ n, loose n → ∃ s, (s,n) ∈ marks)
    (ok : dispatch data k call = .ok (r,k')) (enough : k'.fs.exhausted = false) : Answers k call r k' := by
  have before := serving.back (.call k k' call r ok) enough
  exact dispatch_served (serving.settled before) bound (serving.sound before).typed ok enough

/-- The inode of a descriptor is one of the few. -/
theorem Serving.numbers (serving : Serving all kpgdir strict loose marks origin k) (enough : k.fs.exhausted = false)
    (fd : Fin nofile) (d : Desc) (here : (service k).desc fd = some d) : d.inum < 65536 := by
  obtain ⟨f,named,rfl⟩ := Option.map_eq_some_iff.mp here
  have settled := serving.settled enough
  have volume := settled.orderly.lawful.volume
  exact (volume.within _ (settled.in_use named)).trans_le volume.narrow

theorem remains_of_request (safe : Safe Counted k) (ok : dispatch data k call = .ok (r,k')) (asked : request k call ≠ none) :
    Remains k k' := by
  cases call with
  | open_ => exact ((Safe.sysOpen counted_guard safe).elim ok).2
  | mknod => exact ((Safe.sysMknod counted_guard safe).elim ok).2
  | read => exact ((Safe.sysRead counted_guard safe).elim ok).2
  | write => exact ((Safe.sysWrite counted_guard safe).elim ok).2
  | close => exact ((Safe.sysClose counted_guard safe).elim ok).2
  | fstat => exact ((Safe.sysFstat counted_guard safe).elim ok).2
  | exec => exact absurd rfl asked

/-- One call: the answer of the service, and what happens to the memory of the program. -/
theorem Serving.dispatched (serving : Serving all kpgdir strict loose marks origin k) (bound : ∀ n, loose n → ∃ s, (s,n) ∈ marks)
    (ok : dispatch data k call = .ok (r,k')) (enough : k'.fs.exhausted = false) (asked : request k call = some q) :
    (service k).serve q = .ok ((r,observed k' ((word k 1).getD 0) r q),service k') ∧
      ∀ a < k.proc.sz, ¬((word k 1).getD 0 ≤ a ∧ a < (word k 1).getD 0 + extent r q) → userByte k' a = userByte k a := by
  obtain ⟨out,served,vm⟩ := (serving.answers bound ok enough).served q asked
  have before := serving.back (.call k k' call r ok) enough
  have remains := remains_of_request serving.safe ok (by rw [asked]; exact Option.some_ne_none q)
  have numbers (fd : Fin nofile) (d : Desc) (here : (service k).desc fd = some d) : d.inum < 4294967296 := by
    have := serving.numbers before fd d here
    omega
  obtain ⟨found,kept⟩ := delivered serving.paged served numbers (request_room serving.paged.limit asked) vm remains.pgdir
  rw [← found]
  exact ⟨served,kept⟩

/-- A step does nothing to the service, or serves one request. -/
theorem Serving.served (serving : Serving all kpgdir strict loose marks origin k) (bound : ∀ n, loose n → ∃ s, (s,n) ∈ marks)
    (step : Step data k k') (enough : k'.fs.exhausted = false) :
    service k' = service k ∨ ∃ q a, q.Proper ∧ (service k).serve q = .ok (a,service k') := by
  cases step with
  | user frame refused esp stack => exact Or.inl rfl
  | call _ call r ok =>
    have answers := serving.answers bound ok enough
    cases asked : request k call with
    | none => exact Or.inl (answers.silent asked)
    | some q =>
      obtain ⟨out,served,_⟩ := answers.served q asked
      exact Or.inr ⟨q,(r,out),request_proper asked,served⟩

theorem Serving.step (serving : Serving all kpgdir strict loose marks origin k) (bound : ∀ n, loose n → ∃ s, (s,n) ∈ marks)
    (linked : Linked data) (step : Step data k k') : Serving all kpgdir strict loose marks origin k' := by
  refine ⟨serving.paged.step serving.safe linked step,serving.safe.step counted_guard step,fun enough => ?_,fun enough => ?_,
    fun enough => ?_⟩
  · exact (serving.settled (serving.back step enough)).run bound (Relation.ReflTransGen.single step) enough
  · have before := serving.sound (serving.back step enough)
    rcases serving.served bound step enough with same | ⟨q,a,proper,served⟩
    · rw [same]
      exact before
    · exact (Service.serve_onward before proper served).1
  · have before := serving.sound (serving.back step enough)
    have room := serving.roomy (serving.back step enough)
    rcases serving.served bound step enough with same | ⟨q,a,proper,served⟩
    · rw [same]
      exact room
    · exact Service.serve_roomy before room proper served

/-- Whatever happens in a run, no name goes away, and no inode becomes another one. -/
theorem Serving.run (serving : Serving all kpgdir strict loose marks origin k) (bound : ∀ n, loose n → ∃ s, (s,n) ∈ marks)
    (linked : Linked data) (run : Run data k k') : Serving all kpgdir strict loose marks origin k' ∧
      (k'.fs.exhausted = false → (service k).Onward (service k')) := by
  induction run with
  | refl => exact ⟨serving,fun _ => Service.Onward.refl _⟩
  | tail _ step ih =>
    obtain ⟨now,onward⟩ := ih
    refine ⟨now.step bound linked step,fun enough => ?_⟩
    have before := now.back step enough
    rcases now.served bound step enough with same | ⟨q,a,proper,served⟩
    · rw [same]
      exact onward before
    · exact (onward before).trans (Service.serve_onward (now.sound before) proper served).2

/-- The kernel refines the service. -/
theorem observed_refines (bound : ∀ n, loose n → ∃ s, (s,n) ∈ marks) (linked : Linked data) :
    Refines (Observed data) Service.serve service (fun k => k.fs.exhausted = false)
      (Serving all kpgdir strict loose marks origin) := by
  refine ⟨fun k x k' serving observed => serving.step bound linked observed.step,
    fun k x k' serving observed enough => serving.back observed.step enough,fun k k' serving observed enough => ?_,
    fun k q a k' serving observed enough => ?_⟩
  · cases observed with
    | user frame refused esp stack => rfl
    | silent ok silent => exact (serving.answers bound ok enough).silent silent
  · cases observed with
    | answered ok asked => exact (serving.dispatched bound ok enough asked).1

end serving

end Lxos.Files
