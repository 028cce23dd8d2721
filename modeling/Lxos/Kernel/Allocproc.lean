import Lxos.Kernel.Memory

/-! `allocproc` of `proc.c` on the whole process table, and what `swtch` finds on the
stack of a new process. Pointers are virtual addresses. -/
namespace Lxos.Kernel
open Lxos.Bytes

abbrev nproc : Nat := 64
abbrev kstacksize : Nat := 4096

/-- `sizeof(registers_t)`. -/
abbrev trapframeSize : Nat := 76

/-- `sizeof(struct context)`. -/
abbrev contextSize : Nat := 20

inductive ProcState
  | unused | embyro | sleeping | runnable | running
deriving DecidableEq

/-- The fields of `struct proc` that are given to a new process. -/
structure ProcEntry where
  kstack : Nat
  state : ProcState
  pid : BitVec 32
  tf : Nat
  context : Nat

/-- With the table go the numbers of the processes allocated so far. -/
structure Ptable where
  proc : Fin nproc → ProcEntry
  nextpid : BitVec 32
  vm : Vm
  issued : List (BitVec 32)

def Ptable.setProc (s : Ptable) (p : Fin nproc) (entry : ProcEntry) : Ptable :=
  { s with proc := Function.update s.proc p entry }

/-- The address of a page in the kernel. -/
def p2v (page : Page) : Nat := kernbase + page * pgsize

section code
variable (forkret trapret : BitVec 32)

/-- The trap frame, the return address and the context, from the end of the stack down:
the addresses of the frame and of the context, and the page. -/
def layStack (stack : Buffer) (kstack : Nat) : Nat × Nat × Buffer :=
  let sp := kstack + kstacksize
  let sp := sp - trapframeSize
  let tf := sp
  let sp := sp - 4
  let stack := put32 stack (sp - kstack) trapret
  let sp := sp - contextSize
  let context := sp
  let stack := blit stack (context - kstack) contextSize zeros
  (tf,context,put32 stack (context + 16 - kstack) forkret)

/-- The body of the loop for an unused slot. -/
def allocSlot (s : Ptable) (p : Fin nproc) : Option (Fin nproc) × Ptable :=
  let entry := { s.proc p with state := .embyro,pid := s.nextpid }
  let s := { s.setProc p entry with nextpid := s.nextpid + 1 }
  match kalloc s.vm with
  | (none,m) => (none,{ s.setProc p { entry with kstack := 0,state := .unused } with vm := m })
  | (some page,m) =>
    let kstack := p2v page
    let r := layStack forkret trapret (m.frame page) kstack
    let s := s.setProc p { entry with kstack := kstack,tf := r.1,context := r.2.1 }
    (some p,{ s with vm := m.setFrame page r.2.2,issued := entry.pid :: s.issued })

/-- The counter goes through the table, the pointer stays where it is. -/
def allocprocLoop (p : Fin nproc) : Nat → Ptable → Option (Fin nproc) × Ptable
  | 0, s => (none,s)
  | n+1, s => if (s.proc p).state = .unused then allocSlot forkret trapret s p else allocprocLoop p n s

def allocproc (s : Ptable) : Option (Fin nproc) × Ptable := allocprocLoop forkret trapret 0 nproc s

end code

/-- What `swtch` loads: its last four pops and its return. -/
structure Loaded where
  edi : BitVec 32
  esi : BitVec 32
  ebx : BitVec 32
  ebp : BitVec 32
  eip : BitVec 32
  esp : Nat
deriving DecidableEq

/-- The second half of `swtch`, the stack lying in a page. -/
def swtchLoad (stack : Buffer) (kstack new : Nat) : Loaded where
  edi := le32 stack (new - kstack)
  esi := le32 stack (new + 4 - kstack)
  ebx := le32 stack (new + 8 - kstack)
  ebp := le32 stack (new + 12 - kstack)
  eip := le32 stack (new + 16 - kstack)
  esp := new + 20

/-- A new stack: the context, the return address and the trap frame, up to its end. -/
structure Laid (forkret trapret : BitVec 32) (m : Vm) (page : Page) (entry : ProcEntry) : Prop where
  kstack : entry.kstack = p2v page
  frame : entry.tf + trapframeSize = entry.kstack + kstacksize
  between : entry.context + contextSize + 4 = entry.tf
  inside : entry.kstack ≤ entry.context
  load : swtchLoad (m.frame page) entry.kstack entry.context = ⟨0,0,0,0,forkret,entry.context + contextSize⟩
  return_address : le32 (m.frame page) (entry.context + contextSize - entry.kstack) = trapret

/-- Slot `p` was free, and it is that of a new process. -/
structure NewProc (forkret trapret : BitVec 32) (s s' : Ptable) (p : Fin nproc) : Prop where
  unused : (s.proc p).state = .unused
  embyro : (s'.proc p).state = .embyro
  pid : (s'.proc p).pid ∉ s.issued
  stack : ∃ page, (kalloc s.vm).1 = some page ∧ Laid forkret trapret s'.vm page (s'.proc p)
  other : ∀ q, q ≠ p → s'.proc q = s.proc q

/-- `allocproc` finds a free slot and a page if there are any, and fails without a trace. -/
structure Allocates (forkret trapret : BitVec 32) (s : Ptable) : Prop where
  found : (allocproc forkret trapret s).1 ≠ none ↔ (∃ p, (s.proc p).state = .unused) ∧ (kalloc s.vm).1 ≠ none
  new : ∀ p, (allocproc forkret trapret s).1 = some p → NewProc forkret trapret s (allocproc forkret trapret s).2 p
  failed : (allocproc forkret trapret s).1 = none → ∀ p, ((allocproc forkret trapret s).2.proc p).state = (s.proc p).state

/-- What happens to the table: calls of `allocproc`, and whatever other code does to
the entries and to memory. -/
inductive Move
  | allocproc
  | other (proc : Fin nproc → ProcEntry) (vm : Vm)

def Ptable.move (forkret trapret : BitVec 32) (s : Ptable) : Move → Ptable
  | .allocproc => (Kernel.allocproc forkret trapret s).2
  | .other proc vm => { s with proc := proc,vm := vm }

def Ptable.run (forkret trapret : BitVec 32) (s : Ptable) (moves : List Move) : Ptable :=
  moves.foldl (Ptable.move forkret trapret) s

/-- The calls of `allocproc`. -/
def calls : List Move → Nat
  | [] => 0
  | .allocproc :: moves => calls moves + 1
  | .other _ _ :: moves => calls moves

/-- No process has a number yet. -/
def Ptable.start (proc : Fin nproc → ProcEntry) (vm : Vm) : Ptable := ⟨proc,1,vm,[]⟩

/-- The numbers given are below the next one, which counts the calls. -/
structure Numbered (n : Nat) (s : Ptable) : Prop where
  below : ∀ pid ∈ s.issued, pid.toNat < s.nextpid.toNat
  few : s.nextpid.toNat ≤ n + 1

section runs
variable {forkret trapret : BitVec 32} {s : Ptable} {p : Fin nproc} {n : Nat} {page : Page} {m : Vm}

/-- Where things are on the stack. -/
theorem layStack_eq (stack : Buffer) (kstack : Nat) : layStack forkret trapret stack kstack =
    (kstack + 4020,kstack + 3996,put32 (blit (put32 stack 4016 trapret) 3996 20 zeros) 4012 forkret) := by
  have tf : kstack + kstacksize - trapframeSize = kstack + 4020 := Nat.add_sub_assoc (by decide) kstack
  have ret : kstack + 4020 - 4 - kstack = 4016 := by omega
  have context : kstack + 4020 - 4 - contextSize = kstack + 3996 := Nat.add_sub_assoc (by decide) kstack
  have bottom : kstack + 3996 - kstack = 3996 := Nat.add_sub_cancel_left _ _
  have eip : kstack + 3996 + 16 - kstack = 4012 := by omega
  unfold layStack
  dsimp only
  rw [tf,ret,context,bottom,eip]

theorem layStack_laid (m : Vm) (page : Page) (stack : Buffer) (entry : ProcEntry) (base : entry.kstack = p2v page)
    (frame : entry.tf = (layStack forkret trapret stack entry.kstack).1)
    (context : entry.context = (layStack forkret trapret stack entry.kstack).2.1)
    (written : m.frame page = (layStack forkret trapret stack entry.kstack).2.2) : Laid forkret trapret m page entry := by
  rw [layStack_eq] at frame context written
  dsimp only at frame context written
  have zero (k : Nat) (low : k + 4 ≤ 16) : le32 (m.frame page) (3996 + k) = 0 := by
    rw [written,put32,le32_blit_outside (by omega)]
    refine (le32_congr fun i inside => ?_).trans (le32_zeros 0)
    rw [Nat.add_assoc]
    exact blit_inside (by omega)
  have eip : le32 (m.frame page) 4012 = forkret := by
    rw [written,le32_put32]
  have ret : le32 (m.frame page) 4016 = trapret := by
    rw [written,put32,le32_blit_outside (by omega),le32_blit_outside (by omega),le32_put32]
  have offset (k : Nat) : entry.context + k - entry.kstack = 3996 + k := by omega
  refine ⟨base,by rw [frame]; rfl,by rw [frame,context]; rfl,by omega,?_,?_⟩
  · unfold swtchLoad
    rw [offset,offset,offset,offset,eip,show entry.context - entry.kstack = 3996 + 0 by omega,zero 0 (by decide),
      zero 4 (by decide),zero 8 (by decide),zero 12 (by decide)]
  · rw [offset]
    exact ret

theorem allocSlot_none (failed : kalloc s.vm = (none,m)) : allocSlot forkret trapret s p =
    (none,{ s.setProc p { s.proc p with state := .unused,pid := s.nextpid,kstack := 0 } with
      nextpid := s.nextpid + 1
      vm := m }) := by
  unfold allocSlot
  dsimp only [Ptable.setProc]
  rw [failed,Function.update_idem]

/-- A new process with the next number. -/
theorem allocSlot_some (allocated : kalloc s.vm = (some page,m)) : ∃ s', allocSlot forkret trapret s p = (some p,s') ∧
    s'.nextpid = s.nextpid + 1 ∧ s'.issued = s.nextpid :: s.issued ∧ (s'.proc p).state = .embyro ∧
    (s'.proc p).pid = s.nextpid ∧ (∀ q, q ≠ p → s'.proc q = s.proc q) ∧ Laid forkret trapret s'.vm page (s'.proc p) := by
  let r := layStack forkret trapret (m.frame page) (p2v page)
  let entry : ProcEntry := ⟨p2v page,.embyro,s.nextpid,r.1,r.2.1⟩
  refine ⟨⟨Function.update s.proc p entry,s.nextpid + 1,m.setFrame page r.2.2,s.nextpid :: s.issued⟩,?_,rfl,rfl,?_,?_,
    fun q other => Function.update_of_ne other _ _,?_⟩
  · unfold allocSlot
    dsimp only [Ptable.setProc]
    rw [allocated]
    dsimp only
    rw [Function.update_idem]
  · exact congrArg ProcEntry.state (Function.update_self p entry s.proc)
  · exact congrArg ProcEntry.pid (Function.update_self p entry s.proc)
  · change Laid forkret trapret _ page (Function.update s.proc p entry p)
    rw [Function.update_self]
    exact layStack_laid _ _ (m.frame page) _ rfl rfl rfl (Function.update_self _ _ _)

theorem allocprocLoop_eq (n : Nat) (s : Ptable) : allocprocLoop forkret trapret p (n+1) s =
    if (s.proc p).state = .unused then allocSlot forkret trapret s p else (none,s) := by
  induction n with
  | zero => rfl
  | succ n ih =>
    unfold allocprocLoop
    rw [ih]
    split
    · rfl
    · rfl

/-- Only the first slot is ever looked at. -/
theorem allocproc_eq (s : Ptable) : allocproc forkret trapret s =
    if (s.proc 0).state = .unused then allocSlot forkret trapret s 0 else (none,s) :=
  allocprocLoop_eq 63 s

theorem Numbered.next (numbered : Numbered n s) (few : n < 2147483648) {s' : Ptable}
    (next : s'.nextpid = s.nextpid + 1) (issued : ∀ pid ∈ s'.issued, pid ∈ s.issued ∨ pid = s.nextpid) :
    Numbered (n + 1) s' := by
  have limit := numbered.few
  have value : s'.nextpid.toNat = s.nextpid.toNat + 1 := by
    rw [next,BitVec.toNat_add]
    exact Nat.mod_eq_of_lt (by change s.nextpid.toNat + 1 < 4294967296; omega)
  refine ⟨fun pid member => ?_,by omega⟩
  rcases issued pid member with old | rfl
  · have := numbered.below pid old
    omega
  · omega

theorem allocproc_numbered (numbered : Numbered n s) (few : n < 2147483648) :
    Numbered (n + 1) (allocproc forkret trapret s).2 := by
  rw [allocproc_eq]
  split
  · rcases outcome : kalloc s.vm with ⟨_ | page,m⟩
    · rw [allocSlot_none outcome]
      exact numbered.next few rfl fun pid => Or.inl
    · obtain ⟨s',found,next,issued,_⟩ := @allocSlot_some forkret trapret s 0 page m outcome
      rw [found]
      refine numbered.next few next fun pid member => ?_
      rw [issued] at member
      exact (List.mem_cons.mp member).symm
  · exact ⟨numbered.below,Nat.le_succ_of_le numbered.few⟩

theorem run_numbered (moves : List Move) (numbered : Numbered n s) (few : n + calls moves ≤ 2147483648) :
    Numbered (n + calls moves) (s.run forkret trapret moves) := by
  induction moves generalizing s n with
  | nil => exact numbered
  | cons move moves ih =>
    cases move with
    | allocproc =>
      change n + (calls moves + 1) ≤ _ at few
      have next := @ih _ (n+1) (@allocproc_numbered forkret trapret s n numbered (by omega)) (by omega)
      rw [show n + 1 + calls moves = n + calls (.allocproc :: moves) from Nat.add_right_comm n 1 (calls moves)] at next
      exact next
    | other proc vm => exact @ih { s with proc := proc,vm := vm } n ⟨numbered.below,numbered.few⟩ few

theorem allocates_none (failed : (allocproc forkret trapret s).1 = none)
    (same : ∀ p, ((allocproc forkret trapret s).2.proc p).state = (s.proc p).state) :
    Allocates forkret trapret s ↔ (∀ p, (s.proc p).state ≠ .unused) ∨ (kalloc s.vm).1 = none := by
  constructor
  · intro allocates
    by_contra both
    rw [not_or,not_forall] at both
    obtain ⟨⟨p,unused⟩,free⟩ := both
    exact allocates.found.mpr ⟨⟨p,not_not.mp unused⟩,free⟩ failed
  · intro none_left
    refine ⟨iff_of_false (not_not.mpr failed) ?_,fun p found => ?_,fun _ => same⟩
    · rintro ⟨⟨p,unused⟩,free⟩
      exact none_left.elim (fun used => used p unused) free
    · rw [failed] at found
      cases found

theorem allocates_iff (numbered : Numbered n s) : Allocates forkret trapret s ↔
    (s.proc 0).state = .unused ∨ (∀ p, (s.proc p).state ≠ .unused) ∨ (kalloc s.vm).1 = none := by
  by_cases unused : (s.proc 0).state = .unused
  · have slot : allocproc forkret trapret s = allocSlot forkret trapret s 0 := by
      rw [allocproc_eq,if_pos unused]
    refine iff_of_true ?_ (.inl unused)
    rcases outcome : kalloc s.vm with ⟨_ | page,m⟩
    · rw [allocSlot_none outcome] at slot
      refine (allocates_none (by rw [slot]) fun p => ?_).mpr (.inr (by rw [outcome]))
      rw [slot]
      rcases eq_or_ne p 0 with rfl | other
      · rw [unused]
        exact congrArg ProcEntry.state (Function.update_self 0 _ s.proc)
      · exact congrArg ProcEntry.state (Function.update_of_ne other _ _)
    · obtain ⟨s',found,_,_,embyro,pid,other,laid⟩ := @allocSlot_some forkret trapret s 0 page m outcome
      rw [found] at slot
      refine ⟨?_,fun p here => ?_,fun failed => ?_⟩
      · rw [slot,outcome]
        exact iff_of_true (Option.some_ne_none _) ⟨⟨0,unused⟩,Option.some_ne_none _⟩
      · rw [slot] at here ⊢
        obtain rfl := Option.some.inj here
        refine ⟨unused,embyro,fun old => ?_,⟨page,by rw [outcome],laid⟩,other⟩
        rw [pid] at old
        exact lt_irrefl _ (numbered.below _ old)
      · rw [slot] at failed
        cases failed
  · have slot : allocproc forkret trapret s = (none,s) := by
      rw [allocproc_eq,if_neg unused]
    rw [or_iff_right unused]
    exact allocates_none (by rw [slot]) fun p => by rw [slot]

end runs

/-- At any point of a run with fewer than 2^31 calls: the first slot has to be the free
one, unless there is nothing to allocate. -/
theorem allocproc_allocates (forkret trapret : BitVec 32) (proc : Fin nproc → ProcEntry) (vm : Vm) (moves : List Move)
    (few : calls moves < 2147483648) :
    let s := (Ptable.start proc vm).run forkret trapret moves
    Allocates forkret trapret s ↔
      (s.proc 0).state = .unused ∨ (∀ p, (s.proc p).state ≠ .unused) ∨ (kalloc s.vm).1 = none := by
  have start : Numbered 0 (Ptable.start proc vm) := ⟨fun pid member => absurd member List.not_mem_nil,le_refl 1⟩
  exact allocates_iff (run_numbered moves start (by omega))

/-- One page, and one running process in the first slot. -/
def oneProcess : Ptable := .start (fun p => ⟨0,if p = 0 then .running else .unused,0,0,0⟩) ⟨fun _ _ => .zero,fun _ => zeros,[7],[]⟩

/-- The second process gets no slot. -/
theorem allocproc_first : ¬∀ forkret trapret proc vm moves, calls moves < 2147483648 →
    Allocates forkret trapret ((Ptable.start proc vm).run forkret trapret moves) := by
  intro all
  have allocates := all 0 0 oneProcess.proc oneProcess.vm [] (by decide)
  rcases (allocproc_allocates 0 0 oneProcess.proc oneProcess.vm [] (by decide)).mp allocates with first | used | empty
  · cases first
  · exact used 1 rfl
  · cases empty

/-- The first process gets one. -/
theorem allocproc_allocates_first : Allocates 0 0
    ((Ptable.start (fun _ => ⟨0,.unused,0,0,0⟩) oneProcess.vm).run 0 0 []) :=
  (allocproc_allocates 0 0 (fun _ => ⟨0,.unused,0,0,0⟩) oneProcess.vm [] (by decide)).mpr (.inl rfl)

end Lxos.Kernel
