import Lxos.Kernel.References

/-! `exit` takes the files and the working directory of a process, and lets it run on. -/
namespace Lxos.Kernel
open Lxos.Bytes Lxos.Fs

/-- The loop of `exit` over the descriptors. -/
def closeAll : List (Fin nofile) → State → State
  | [], k => k
  | fd :: fds, k =>
    match k.proc.ofile fd with
    | none => closeAll fds k
    | some f =>
      let k := fileclose k f
      closeAll fds { k with proc := { k.proc with ofile := Function.update k.proc.ofile fd none } }

/-- `exit`, where the working directory is still there. -/
def exit (k : State) : State :=
  let k := closeAll (List.finRange nofile) k
  { k with fs := iput k.fs k.proc.cwd }

/-- A process with its `cwd` pointer, which is null once `exit` has cleared it. The
working directory in `k` means nothing then. -/
structure Life where
  k : State
  cwd : Option Slot

def Life.begin (k : State) : Life := ⟨k,some k.proc.cwd⟩

inductive Act
  | step | exit
deriving DecidableEq, Repr

/-- After `exit` the program runs on, and so does any system call that does not ask for
the working directory; one that does follows a null pointer. -/
inductive Life.Step (data : Nat) : Life → Act → Life → Prop
  | step (k k' : State) (step : Kernel.Step data k k') : Life.Step data (begin k) .step (begin k')
  | exit (k : State) : Life.Step data (begin k) .exit ⟨Kernel.exit k,none⟩
  | later (k k' : State) (apart : ∀ cwd, Kernel.Step data { k with proc := { k.proc with cwd := cwd } }
      { k' with proc := { k'.proc with cwd := cwd } }) : Life.Step data ⟨k,none⟩ .step ⟨k',none⟩

/-- Any number of steps, and which they were. -/
inductive Life.Run (data : Nat) : Life → List Act → Life → Prop
  | refl (l : Life) : Life.Run data l [] l
  | tail {l l' l'' : Life} {acts : List Act} {act : Act} (run : Life.Run data l acts l')
      (step : Life.Step data l' act l'') : Life.Run data l (acts ++ [act]) l''

/-- The pointer that `exit` gives to `iput`, and `namex` to `idup`, names a slot in use. -/
def Life.Live (l : Life) : Prop := ∃ s, l.cwd = some s ∧ 1 ≤ (l.k.fs.icache s).ref

section life
variable {data : Nat} {k k₀ : State} {l l' : Life} {act : Act} {acts : List Act}

theorem Safe.live (safe : Safe Counted k) : (Life.begin k).Live := by
  refine ⟨k.proc.cwd,rfl,?_⟩
  have held : Held (k.handles.map Prod.fst) k.fs := safe.inv
  exact held.positive List.mem_cons_self

/-- Before the first `exit` the references are right; after it the pointer is null. -/
structure Life.Inv (acts : List Act) (l : Life) : Prop where
  before : .exit ∉ acts → ∃ k, l = begin k ∧ Safe Counted k
  after : .exit ∈ acts → l.cwd = none

theorem Life.Inv.step (inv : Life.Inv acts l) (step : Life.Step data l act l') : Life.Inv (acts ++ [act]) l' := by
  cases step with
  | step k k' step =>
    have quiet : .exit ∉ acts := fun gone => nomatch inv.after gone
    obtain ⟨k₁,same,safe⟩ := inv.before quiet
    obtain rfl := congrArg Life.k same
    refine ⟨fun _ => ⟨k',rfl,safe.step counted_guard step⟩,fun gone => ?_⟩
    rcases List.mem_append.mp gone with old | new
    · exact absurd old quiet
    · cases List.mem_singleton.mp new
  | exit k =>
    exact ⟨fun quiet => absurd (List.mem_append_right _ List.mem_cons_self) quiet,fun _ => rfl⟩
  | later k k' apart =>
    refine ⟨fun quiet => ?_,fun _ => rfl⟩
    obtain ⟨k₁,same,_⟩ := inv.before fun gone => quiet (List.mem_append_left _ gone)
    cases congrArg Life.cwd same

theorem Life.Inv.run (safe : Safe Counted k₀) (run : Life.Run data (begin k₀) acts l) : Life.Inv acts l := by
  generalize start : begin k₀ = l₀ at run
  induction run with
  | refl => exact ⟨fun _ => ⟨k₀,start.symm,safe⟩,fun gone => nomatch gone⟩
  | tail _ step ih => exact ih.step step

/-- The working directory is live exactly as long as `exit` has not been called. -/
theorem Life.live_iff {m : Vm} {kstack pgdir : Page} {disk : Nat → Nat → Block} {stack : Buffer}
    (started : uinit m kstack pgdir (cold disk stack) = .ok k₀) (run : Life.Run data (begin k₀) acts l) :
    l.Live ↔ .exit ∉ acts := by
  rw [uinit_eq] at started
  obtain rfl := Except.ok.inj started
  have inv := Life.Inv.run (uinitState_safe m kstack pgdir disk stack) run
  constructor
  · rintro ⟨s,here,_⟩ gone
    rw [inv.after gone] at here
    cases here
  · intro quiet
    obtain ⟨k,rfl,safe⟩ := inv.before quiet
    exact safe.live

theorem Life.live_start : (begin (uinitState ⟨fun _ _ => .zero,fun _ => zeros,[],[]⟩ 1 2 (fun _ _ => zeros) zeros)).Live :=
  (Life.live_iff (uinit_eq ⟨fun _ _ => .zero,fun _ => zeros,[],[]⟩ 1 2 (fun _ _ => zeros) zeros)
    (Life.Run.refl _ : Life.Run 0 _ _ _)).mpr List.not_mem_nil

/-- One `exit`, and the next one has no working directory to put. -/
theorem Life.exit_dead : ∃ k₀ l, uinit ⟨fun _ _ => .zero,fun _ => zeros,[],[]⟩ 1 2 (cold (fun _ _ => zeros) zeros) = .ok k₀ ∧
    Life.Run 0 (begin k₀) [.exit] l ∧ ¬l.Live := by
  refine ⟨_,_,uinit_eq _ _ _ _ _,(Life.Run.refl _).tail (Life.Step.exit _),?_⟩
  rintro ⟨s,here,_⟩
  cases here

end life

end Lxos.Kernel
