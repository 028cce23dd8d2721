import Lxos.Cpu.Trap
import Lxos.Drivers.Keyboard
import Lxos.Kernel.References

/-! The interrupt flag. Code is the list of what it does to the flag and to the disk;
interrupts suspend it at any point where the flag is set. -/
namespace Lxos.Cpu
open Lxos.Bytes Lxos.Fs Lxos.Kernel Lxos.Drivers

/-- What code does, as far as interrupts are concerned. -/
inductive Op
  | cli
  | sti
  /-- A call of `iderw`, up to the end of its wait. -/
  | iderw
  | hlt
  | work
deriving DecidableEq

/-- The flags of a gate, as `set_idt_gate` sets them. -/
def Gate.flags (v : Gate) : Nat := if v.number = 64 then 239 else 142

/-- The interrupt flag after entry through the gate. -/
def Gate.enter (v : Gate) (interrupts : Bool) : Bool := if v.flags = 142 then false else interrupts

def timer : Gate := .irq 0
def keyboard : Gate := .irq 1
def ide : Gate := .irq 14

/-- Each block asked for is one wait at most; the buffer cache may have the block already. -/
def asks (trace : List Event) : List Op :=
  trace.reverse.filterMap fun
    | .bread _ _ => some .iderw
    | .bwrite _ _ _ => some .iderw
    | _ => none

def commandOps : LineCommand → List Op
  | .cls => [.work]
  | .stop => [.work,.hlt]
  | .page => [.work]
  | .testWrite => [.iderw,.work]
  | .testRead => [.iderw,.work]
  | .none => []

def switchuvm : List Op := [.cli,.work,.sti]

def irq_install : List Op := [.cli,.work]

def scheduler : List Op := .sti :: switchuvm

/-- From `uinit`'s call of `namei` to `trapret`: `isr_install`, `scheduler`, and `forkret`. -/
def bootOps (disk : Nat → Nat → Block) (stack : Buffer) : List Op :=
  match namei (cold disk stack) 0 [slash] with
  | .error _ => []
  | .ok (_,fs) => asks fs.trace ++ irq_install ++ scheduler ++ asks (readsb { fs with trace := [] } rootdev).trace

/-- What a system call may do: whatever blocks it asks for, the line that `sys_exec`
gives to `user_input`, and `switchuvm`. -/
inductive Calls : List Op → Prop
  | nil : Calls []
  | work {ops : List Op} (rest : Calls ops) : Calls (.work :: ops)
  | iderw {ops : List Op} (rest : Calls ops) : Calls (.iderw :: ops)
  | line {ops : List Op} (rest : Calls ops) : Calls (commandOps (user_input "test IDE".toList) ++ ops)
  | switchuvm {ops : List Op} (rest : Calls ops) : Calls (switchuvm ++ ops)

/-- The processor: what the running code has left to do, and the suspended code, each
with the flag that `iret` restores. The first process is below all of it. -/
structure Processor where
  interrupts : Bool
  ops : List Op
  saved : List (List Op × Bool)
  kb : Keyboard

namespace Processor

/-- Control is in the loop of `iderw` that waits for the disk. -/
def Waiting (s : Processor) : Prop := s.ops.head? = some .iderw

/-- The processor takes an interrupt; it ends a `hlt`. -/
def interrupt (s : Processor) (v : Gate) (ops : List Op) : Processor :=
  { s with
    interrupts := v.enter s.interrupts
    ops := ops
    saved := (if s.ops.head? = some .hlt then s.ops.tail else s.ops,s.interrupts) :: s.saved }

end Processor

/-- The start of `kernel_main`, after the `cli` of `kernel_entry.S`; `uinit` has the first
process start with interrupts on. -/
def start (disk : Nat → Nat → Block) (stack : Buffer) : Processor := ⟨false,bootOps disk stack,[([],true)],⟨[],false⟩⟩

inductive Act
  | run
  | timer
  | ide
  /-- A scancode, and the line before it. -/
  | key (scancode : Nat) (line : List Char)
deriving DecidableEq

/-- A wait may end at any time; that it ends only after an interrupt of the disk does not
matter here. A `hlt` does not end by itself. -/
inductive Step : Processor → Act → Processor → Prop
  | work (s : Processor) (op : Op) (ops : List Op) (next : s.ops = op :: ops) (quiet : op = .work ∨ op = .iderw) :
      Step s .run { s with ops := ops }
  | cli (s : Processor) (ops : List Op) (next : s.ops = .cli :: ops) : Step s .run { s with ops := ops,interrupts := false }
  | sti (s : Processor) (ops : List Op) (next : s.ops = .sti :: ops) : Step s .run { s with ops := ops,interrupts := true }
  | iret (s : Processor) (ops : List Op) (flag : Bool) (saved : List (List Op × Bool)) (done : s.ops = [])
      (below : s.saved = (ops,flag) :: saved) : Step s .run { s with ops := ops,interrupts := flag,saved := saved }
  | syscall (s : Processor) (ops : List Op) (calls : Calls ops) (user : s.ops = [] ∧ s.saved = []) :
      Step s .run (s.interrupt .syscall ops)
  | timer (s : Processor) (on : s.interrupts = true) : Step s .timer (s.interrupt timer [.work])
  | ide (s : Processor) (on : s.interrupts = true) : Step s .ide (s.interrupt ide [.work])
  | key (s : Processor) (scancode : Nat) (on : s.interrupts = true) (fits : s.kb.Fits scancode) :
      Step s (.key scancode s.kb.line) { s.interrupt keyboard (.work :: commandOps (keyboard_callback s.kb scancode).2) with
        kb := (keyboard_callback s.kb scancode).1 }

inductive Run (s₀ : Processor) : List Act → Processor → Prop
  | refl : Run s₀ [] s₀
  | tail {acts : List Act} {s s' : Processor} {act : Act} (run : Run s₀ acts s) (step : Step s act s') : Run s₀ (acts ++ [act]) s'

/-- The line completed is none of the two that ask for the disk. -/
def Act.Harmless : Act → Prop
  | .key scancode line => scancode = enterKey → line ≠ "TESTIDEW".toList ∧ line ≠ "TESTIDER".toList
  | _ => True

/-- Code that waits for the disk only with the flag set, from the given flag on. -/
def Sound : Bool → List Op → Prop
  | _, [] => True
  | _, .cli :: ops => Sound false ops
  | _, .sti :: ops => Sound true ops
  | on, .iderw :: ops => on = true ∧ Sound on ops
  | on, _ :: ops => Sound on ops

/-- All code is sound, and the flag is set in the first process. -/
structure Inv (s : Processor) : Prop where
  running : Sound s.interrupts s.ops
  suspended : ∀ c ∈ s.saved, Sound c.2 c.1
  user : (s.saved = [] → s.ops = [] ∧ s.interrupts = true) ∧ ∀ c, s.saved.getLast? = some c → c = ([],true)

section sound
variable {ops rest : List Op} {on : Bool}

theorem Sound.tail (sound : Sound on ops) (stop : ops.head? = some .hlt) : Sound on ops.tail := by
  cases ops with
  | nil => cases stop
  | cons op ops =>
    obtain rfl := Option.some.inj stop
    exact sound

theorem Calls.sound (calls : Calls ops) : Sound true ops := by
  induction calls with
  | nil => trivial
  | work _ ih => exact ih
  | iderw _ ih => exact ⟨rfl,ih⟩
  | line _ ih => exact ih
  | switchuvm _ ih => exact ih

/-- The commands that do not use the disk are sound with interrupts off. -/
theorem command_sound {command : LineCommand} (write : command ≠ .testWrite) (read : command ≠ .testRead) :
    Sound false (commandOps command) := by
  cases command with
  | testWrite => exact absurd rfl write
  | testRead => exact absurd rfl read
  | cls => trivial
  | stop => trivial
  | page => trivial
  | none => trivial

end sound

/-- Boot asks for one block, the superblock, and with interrupts on. -/
theorem bootOps_eq (disk : Nat → Nat → Block) (stack : Buffer) :
    bootOps disk stack = [.cli,.work,.sti,.cli,.work,.sti,.iderw] := by
  unfold bootOps
  rw [cold_namei]
  rfl

section steps
variable {s s' : Processor} {v : Gate} {ops : List Op} {act : Act}

theorem start_inv (disk : Nat → Nat → Block) (stack : Buffer) : Inv (start disk stack) := by
  refine ⟨?_,?_,⟨fun absurd => (by cases absurd),?_⟩⟩
  · change Sound false (bootOps disk stack)
    rw [bootOps_eq]
    exact ⟨rfl,trivial⟩
  · intro c inside
    rw [List.mem_singleton.mp inside]
    trivial
  · intro c last
    exact (Option.some.inj last).symm

theorem Inv.interrupt (inv : Inv s) (on : s.interrupts = true) (sound : Sound (v.enter true) ops) : Inv (s.interrupt v ops) := by
  refine ⟨?_,?_,⟨fun absurd => (by cases absurd),?_⟩⟩
  · change Sound (v.enter s.interrupts) ops
    rw [on]
    exact sound
  · intro c inside
    rcases List.mem_cons.mp inside with rfl | old
    · dsimp only
      split
      · exact inv.running.tail ‹_›
      · exact inv.running
    · exact inv.suspended c old
  · intro c last
    cases none_saved : s.saved with
    | nil =>
      have user := inv.user.1 none_saved
      unfold Processor.interrupt at last
      rw [none_saved,user.1,user.2] at last
      exact (Option.some.inj last).symm
    | cons d saved =>
      refine inv.user.2 c ?_
      unfold Processor.interrupt at last
      rw [none_saved] at last ⊢
      rw [List.getLast?_cons_cons] at last
      exact last

/-- The code goes on, with the flag as its next step leaves it. -/
theorem Inv.next (inv : Inv s) (busy : s.ops ≠ []) {on : Bool} (sound : Sound on ops) :
    Inv { s with ops := ops,interrupts := on } := by
  refine ⟨sound,inv.suspended,⟨fun none_saved => ?_,inv.user.2⟩⟩
  exact absurd (inv.user.1 none_saved).1 busy

theorem Inv.step (inv : Inv s) (step : Step s act s') (harmless : act.Harmless) : Inv s' := by
  have running := inv.running
  cases step with
  | work op ops next quiet =>
    rw [next] at running
    refine inv.next (by rw [next]; exact List.cons_ne_nil _ _) ?_
    rcases quiet with rfl | rfl
    · exact running
    · exact running.2
  | cli ops next =>
    rw [next] at running
    exact inv.next (by rw [next]; exact List.cons_ne_nil _ _) running
  | sti ops next =>
    rw [next] at running
    exact inv.next (by rw [next]; exact List.cons_ne_nil _ _) running
  | iret ops flag saved done below =>
    have last := inv.user.2
    have suspended := inv.suspended
    rw [below] at last suspended
    refine ⟨suspended _ List.mem_cons_self,fun c inside => suspended c (List.mem_cons_of_mem _ inside),?_,?_⟩
    · intro none_saved
      obtain rfl : saved = [] := none_saved
      exact Prod.mk.inj (last _ rfl)
    · intro c at_end
      cases saved with
      | nil => cases at_end
      | cons d saved =>
        rw [List.getLast?_cons_cons] at last
        exact last c at_end
  | syscall ops calls user =>
    exact inv.interrupt (inv.user.1 user.2).2 calls.sound
  | timer on => exact inv.interrupt on trivial
  | ide on => exact inv.interrupt on trivial
  | key scancode on fits =>
    have sound : Sound (keyboard.enter true) (.work :: commandOps (keyboard_callback s.kb scancode).2) := by
      refine command_sound (fun write => ?_) fun read => ?_
      · obtain ⟨enter,line⟩ := keyboard_callback_disk s.kb scancode (Or.inl write)
        exact not_or.mpr (harmless enter) line
      · obtain ⟨enter,line⟩ := keyboard_callback_disk s.kb scancode (Or.inr read)
        exact not_or.mpr (harmless enter) line
    have next := inv.interrupt on sound
    exact ⟨next.running,next.suspended,next.user⟩

theorem Inv.run {s₀ : Processor} {acts : List Act} (inv : Inv s₀) (run : Run s₀ acts s) (harmless : ∀ act ∈ acts, act.Harmless) :
    Inv s := by
  induction run with
  | refl => exact inv
  | tail run step ih =>
    refine Inv.step (ih fun act inside => ?_) step ?_
    · exact harmless act (List.mem_append_left _ inside)
    · exact harmless _ (List.mem_append_right _ (List.mem_singleton_self _))

/-- While no line asks for the disk, whoever waits for the disk can be interrupted. -/
theorem waits_interruptible {disk : Nat → Nat → Block} {stack : Buffer} {acts : List Act} (run : Run (start disk stack) acts s)
    (harmless : ∀ act ∈ acts, act.Harmless) (waiting : s.Waiting) : s.interrupts = true := by
  have sound := ((start_inv disk stack).run run harmless).running
  obtain ⟨ops,waits⟩ := List.head?_eq_some_iff.mp waiting
  rw [waits] at sound
  exact sound.1

/-- Code without a `hlt` runs when nothing interrupts it. -/
theorem Run.code {s₀ : Processor} {acts : List Act} {ops rest : List Op} {on : Bool} {saved : List (List Op × Bool)}
    {kb : Keyboard} (run : Run s₀ acts ⟨on,ops ++ rest,saved,kb⟩) (quiet : .hlt ∉ ops) :
    ∃ n on', Run s₀ (acts ++ List.replicate n .run) ⟨on',rest,saved,kb⟩ := by
  induction ops generalizing acts on with
  | nil =>
    refine ⟨0,on,?_⟩
    rw [List.replicate_zero,List.append_nil]
    exact run
  | cons op ops ih =>
    have next : ∃ on', Step ⟨on,op :: ops ++ rest,saved,kb⟩ .run ⟨on',ops ++ rest,saved,kb⟩ := by
      cases op with
      | cli => exact ⟨false,.cli _ _ rfl⟩
      | sti => exact ⟨true,.sti _ _ rfl⟩
      | iderw => exact ⟨on,.work _ _ _ rfl (Or.inr rfl)⟩
      | work => exact ⟨on,.work _ _ _ rfl (Or.inl rfl)⟩
      | hlt => exact absurd List.mem_cons_self quiet
    obtain ⟨on',step⟩ := next
    obtain ⟨n,on'',run'⟩ := ih (run.tail step) fun inside => quiet (List.mem_cons_of_mem op inside)
    refine ⟨n + 1,on'',?_⟩
    rw [List.append_assoc] at run'
    exact run'

/-- Keys that complete no line are taken and forgotten. -/
theorem Run.type {s₀ : Processor} {acts : List Act} {kb kb' : Keyboard} {codes : List Nat}
    (run : Run s₀ acts ⟨true,[],[],kb⟩) (typed : kb.type codes = some kb') : ∃ acts, Run s₀ acts ⟨true,[],[],kb'⟩ := by
  induction codes generalizing acts kb with
  | nil =>
    obtain rfl := Option.some.inj typed
    exact ⟨acts,run⟩
  | cons scancode codes ih =>
    unfold Keyboard.type at typed
    split at typed
    · rename_i key
      have pressed := run.tail (Step.key _ scancode rfl key.1)
      have silent : commandOps (keyboard_callback kb scancode).2 = [] := by
        unfold keyboard_callback
        rw [if_neg key.2]
        split_ifs
        all_goals rfl
      have back : Step ⟨false,commandOps (keyboard_callback kb scancode).2,[([],true)],(keyboard_callback kb scancode).1⟩ .run
          ⟨true,[],[],(keyboard_callback kb scancode).1⟩ := Step.iret _ [] true [] silent rfl
      exact ih ((pressed.tail (Step.work _ .work _ rfl (Or.inl rfl))).tail back) typed
    · cases typed

/-- Whenever such a line is completed, the next wait is with interrupts off. -/
theorem Run.stuck {s₀ : Processor} {acts : List Act} (run : Run s₀ acts s) (on : s.interrupts = true)
    (line : s.kb.line = "TESTIDEW".toList ∨ s.kb.line = "TESTIDER".toList) :
    ∃ s', Run s₀ (acts ++ [.key enterKey s.kb.line,.run]) s' ∧ s'.Waiting ∧ s'.interrupts = false := by
  have fits : s.kb.Fits enterKey := ⟨fun other => absurd other (by decide),fun _ _ other => absurd rfl other⟩
  have pressed := run.tail (Step.key s enterKey on fits)
  have worked := pressed.tail (Step.work _ .work _ rfl (Or.inl rfl))
  rw [List.append_assoc] at worked
  refine ⟨_,worked,?_,rfl⟩
  change (commandOps (user_input s.kb.line)).head? = some .iderw
  rcases (user_input_disk s.kb.line).mpr line with write | read
  · rw [write]
    rfl
  · rw [read]
    rfl

theorem start_run (disk : Nat → Nat → Block) (stack : Buffer) :
    Run (start disk stack) [] ⟨false,[.cli,.work,.sti,.cli,.work,.sti] ++ [.iderw],[([],true)],⟨[],false⟩⟩ := by
  have same : start disk stack = ⟨false,[.cli,.work,.sti,.cli,.work,.sti] ++ [.iderw],[([],true)],⟨[],false⟩⟩ := by
    unfold start
    rw [bootOps_eq]
    rfl
  rw [← same]
  exact Run.refl

/-- Capslock, `TESTIDEW` and enter, once the first process runs. -/
theorem waits_uninterruptible : ∃ acts s, Run (start (fun _ _ => zeros) zeros) acts s ∧ s.Waiting ∧ s.interrupts = false := by
  obtain ⟨n,on,run⟩ := (start_run (fun _ _ => zeros) zeros).code (by decide)
  have user : Run _ _ ⟨true,[],[],⟨[],false⟩⟩ :=
    (run.tail (Step.work _ .iderw [] rfl (Or.inr rfl))).tail (Step.iret _ [] true [] rfl rfl)
  have typed : (⟨[],false⟩ : Keyboard).type [58,20,18,31,20,23,32,18,17] = some ⟨"TESTIDEW".toList,true⟩ := by decide
  obtain ⟨acts,run⟩ := user.type typed
  obtain ⟨s,stuck,waits,off⟩ := run.stuck rfl (Or.inl rfl)
  exact ⟨_,s,stuck,waits,off⟩

/-- `forkret` waits for the superblock. -/
theorem waits_interruptible_forkret : ∃ acts s, Run (start (fun _ _ => zeros) zeros) acts s ∧ s.Waiting ∧ s.interrupts = true := by
  obtain ⟨n,on,run⟩ := (start_run (fun _ _ => zeros) zeros).code (by decide)
  have harmless : ∀ act ∈ [] ++ List.replicate n Act.run, act.Harmless := by
    intro act inside
    rw [List.nil_append] at inside
    rw [List.eq_of_mem_replicate inside]
    trivial
  exact ⟨_,_,run,rfl,waits_interruptible run harmless rfl⟩

end steps

end Lxos.Cpu
