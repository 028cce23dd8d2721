import Mathlib.Logic.Basic
import Mathlib.Tactic.ByContra

/-! The trap frame: what the processor and `interrupt.asm` push, what `registers_t` of
`isr.h` says about it, and what `trapret` pops. The stack is the list of its words,
the top one first; a structure in memory is the list of its words in order. -/
namespace Lxos.Cpu

abbrev Word := BitVec 32

/-- The registers of the interrupted program. -/
@[ext] structure Registers where
  edi : Word
  esi : Word
  ebp : Word
  ebx : Word
  edx : Word
  ecx : Word
  eax : Word
  ds : Word
  es : Word
  fs : Word
  gs : Word
  eip : Word
  cs : Word
  eflags : Word
  esp : Word
  ss : Word
deriving DecidableEq

/-- The vectors that `isr_install` sets a gate for. -/
inductive Gate
  | isr (n : Fin 32)
  | irq (n : Fin 16)
  | syscall
deriving DecidableEq

namespace Gate

def number : Gate → Nat
  | isr n => n
  | irq n => 32 + n
  | syscall => 64

/-- The vectors for which an x86 processor pushes an error code. -/
def errorCode (v : Gate) : Prop := v.number ∈ [8,10,11,12,13,14,17,21,29,30]

/-- The vectors whose stubs rely on that. -/
def bare (v : Gate) : Prop := v.number ∈ [8,10,11,12,13,14]

instance : DecidablePred errorCode := fun v => inferInstanceAs (Decidable (v.number ∈ _))

instance : DecidablePred bare := fun v => inferInstanceAs (Decidable (v.number ∈ _))

/-- The first word that the other stubs push. -/
def code : Gate → Nat
  | isr _ => 0
  | irq n => n
  | syscall => 64

end Gate

/-- The words that the processor pushes at a trap from user mode. -/
def cpuPush (r : Registers) (v : Gate) (err : Word) : List Word :=
  let frame := [r.eip,r.cs,r.eflags,r.esp,r.ss]
  if v.errorCode then err :: frame else frame

/-- `isr0` to `isr31`, `irq0` to `irq15` and `irq64`. -/
def stub (v : Gate) (stack : List Word) : List Word :=
  BitVec.ofNat 32 v.number :: if v.bare then stack else BitVec.ofNat 32 v.code :: stack

/-- `common_stub` up to the frame; `ksp` is the stack pointer that `pusha` saves. -/
def commonStub (r : Registers) (ksp : Word) (stack : List Word) : List Word :=
  let stack := r.gs :: r.fs :: r.es :: r.ds :: stack
  r.edi :: r.esi :: r.ebp :: ksp :: r.ebx :: r.edx :: r.ecx :: r.eax :: stack

/-- The stack when `trap_handler` is called. -/
def trap (r : Registers) (v : Gate) (err ksp : Word) : List Word := commonStub r ksp (stub v (cpuPush r v err))

/-- `registers_t`. -/
structure Frame where
  edi : Word
  esi : Word
  ebp : Word
  useless : Word
  ebx : Word
  edx : Word
  ecx : Word
  eax : Word
  ds : Word
  es : Word
  fs : Word
  gs : Word
  int_no : Word
  err_code : Word
  eip : Word
  cs : Word
  eflags : Word
  esp : Word
  ss : Word
deriving DecidableEq

/-- The frame that C code sees where the stack pointer points. -/
def Frame.read : List Word → Option Frame
  | edi :: esi :: ebp :: useless :: ebx :: edx :: ecx :: eax :: ds :: es :: fs :: gs :: int_no :: err_code ::
      eip :: cs :: eflags :: esp :: ss :: _ =>
    some ⟨edi,esi,ebp,useless,ebx,edx,ecx,eax,ds,es,fs,gs,int_no,err_code,eip,cs,eflags,esp,ss⟩
  | _ => none

/-- The memory of a frame. -/
def Frame.words (f : Frame) : List Word :=
  [f.edi,f.esi,f.ebp,f.useless,f.ebx,f.edx,f.ecx,f.eax,f.ds,f.es,f.fs,f.gs,f.int_no,f.err_code,
    f.eip,f.cs,f.eflags,f.esp,f.ss]

/-- `trapret`: the registers as they are popped. -/
def trapret : List Word → Option Registers
  | edi :: esi :: ebp :: _ :: ebx :: edx :: ecx :: eax :: gs :: fs :: es :: ds :: _ :: _ ::
      eip :: cs :: eflags :: esp :: ss :: _ =>
    some { edi, esi, ebp, ebx, edx, ecx, eax, ds, es, fs, gs, eip, cs, eflags, esp, ss }
  | _ => none

/-- `(SEG_UCODE << 3) | DPL_USER` and `(SEG_UDATA << 3) | DPL_USER`. -/
def ucode : Word := 27

def udata : Word := 35

/-- The frame that `uinit` fills. -/
def uinitFrame : Frame where
  edi := 0
  esi := 0
  ebp := 0
  useless := 0
  ebx := 0
  edx := 0
  ecx := 0
  eax := 0
  ds := udata
  es := udata
  fs := 0
  gs := 0
  int_no := 0
  err_code := 0
  eip := 0
  cs := ucode
  eflags := 512
  esp := 4096
  ss := udata

/-- The fields of a frame, by the names of the registers. -/
def Frame.registers (f : Frame) : Registers where
  edi := f.edi
  esi := f.esi
  ebp := f.ebp
  ebx := f.ebx
  edx := f.edx
  ecx := f.ecx
  eax := f.eax
  ds := f.ds
  es := f.es
  fs := f.fs
  gs := f.gs
  eip := f.eip
  cs := f.cs
  eflags := f.eflags
  esp := f.esp
  ss := f.ss

/-- `trapret` loads each register from the field of its name. -/
def Frame.Loads (f : Frame) : Prop := trapret f.words = some f.registers

/-- The handler of a trap sees each register in the field of its name, and the vector. -/
def Agrees (r : Registers) (v : Gate) (err ksp : Word) : Prop :=
  ∃ f, Frame.read (trap r v err ksp) = some f ∧ f.registers = r ∧ f.int_no = BitVec.ofNat 32 v.number ∧ f.Loads

/-- The stub pushes a word in place of an error code that the processor has pushed. -/
def Gate.Doubled (v : Gate) : Prop := v.errorCode ∧ ¬v.bare

section trap
variable (r : Registers) (v : Gate) (err ksp : Word) (f : Frame)

/-- Two pairs of segment registers are popped in the wrong order. -/
theorem Frame.loads_iff : f.Loads ↔ f.ds = f.gs ∧ f.es = f.fs := by
  have popped : trapret f.words = some { f.registers with ds := f.gs, es := f.fs, fs := f.es, gs := f.ds } := rfl
  rw [Frame.Loads,popped,Option.some.injEq]
  constructor
  · intro same
    exact ⟨(congrArg Registers.ds same).symm,(congrArg Registers.es same).symm⟩
  · rintro ⟨ds,es⟩
    exact Registers.ext rfl rfl rfl rfl rfl rfl rfl ds.symm es.symm es ds rfl rfl rfl rfl rfl

theorem Gate.bare_errorCode {v : Gate} (bare : v.bare) : v.errorCode := by
  unfold Gate.bare at bare
  unfold Gate.errorCode
  simp only [List.mem_cons,List.not_mem_nil,or_false] at bare ⊢
  omega

/-- The frame of a stub that pushes as many words as the processor leaves out. -/
theorem read_plain (plain : ¬v.Doubled) : ∃ code, Frame.read (trap r v err ksp) = some
    ⟨r.edi,r.esi,r.ebp,ksp,r.ebx,r.edx,r.ecx,r.eax,r.gs,r.fs,r.es,r.ds,BitVec.ofNat 32 v.number,code,
      r.eip,r.cs,r.eflags,r.esp,r.ss⟩ := by
  unfold trap stub cpuPush
  by_cases bare : v.bare
  · rw [if_pos (Gate.bare_errorCode bare),if_pos bare]
    exact ⟨err,rfl⟩
  · rw [if_neg fun code => plain ⟨code,bare⟩,if_neg bare]
    exact ⟨BitVec.ofNat 32 v.code,rfl⟩

/-- The frame of a stub that pushes one word too many. -/
theorem read_doubled (doubled : v.Doubled) : Frame.read (trap r v err ksp) = some
    ⟨r.edi,r.esi,r.ebp,ksp,r.ebx,r.edx,r.ecx,r.eax,r.gs,r.fs,r.es,r.ds,BitVec.ofNat 32 v.number,
      BitVec.ofNat 32 v.code,err,r.eip,r.cs,r.eflags,r.esp⟩ := by
  unfold trap stub cpuPush
  rw [if_pos doubled.1,if_neg doubled.2]
  rfl

/-- The handler sees the right frame exactly when the segment registers that are swapped
are equal and, at an error code that the stub does not expect, so are the words shifted. -/
theorem agrees_iff : Agrees r v err ksp ↔ r.ds = r.gs ∧ r.es = r.fs ∧
    (v.Doubled → err = r.eip ∧ r.eip = r.cs ∧ r.cs = r.eflags ∧ r.eflags = r.esp ∧ r.esp = r.ss) := by
  unfold Agrees
  by_cases doubled : v.Doubled
  · rw [read_doubled r v err ksp doubled]
    constructor
    · rintro ⟨f,same,regs,-,-⟩
      obtain rfl := Option.some.inj same
      exact ⟨(congrArg Registers.ds regs).symm,(congrArg Registers.es regs).symm,fun _ =>
        ⟨congrArg Registers.eip regs,congrArg Registers.cs regs,congrArg Registers.eflags regs,
          congrArg Registers.esp regs,congrArg Registers.ss regs⟩⟩
    · rintro ⟨ds,es,words⟩
      obtain ⟨eip,cs,eflags,esp,ss⟩ := words doubled
      exact ⟨_,rfl,Registers.ext rfl rfl rfl rfl rfl rfl rfl ds.symm es.symm es ds eip cs eflags esp ss,rfl,
        (Frame.loads_iff _).mpr ⟨ds.symm,es.symm⟩⟩
  · obtain ⟨code,read⟩ := read_plain r v err ksp doubled
    rw [read]
    constructor
    · rintro ⟨f,same,regs,-,-⟩
      obtain rfl := Option.some.inj same
      exact ⟨(congrArg Registers.ds regs).symm,(congrArg Registers.es regs).symm,fun twice => absurd twice doubled⟩
    · rintro ⟨ds,es,-⟩
      exact ⟨_,rfl,Registers.ext rfl rfl rfl rfl rfl rfl rfl ds.symm es.symm es ds rfl rfl rfl rfl rfl,rfl,
        (Frame.loads_iff _).mpr ⟨ds.symm,es.symm⟩⟩

/-- All the same, whatever is pushed by a stub that counts right is popped again. -/
theorem trapret_trap (plain : ¬v.Doubled) : trapret (trap r v err ksp) = some r := by
  unfold trap stub cpuPush
  by_cases bare : v.bare
  · rw [if_pos (Gate.bare_errorCode bare),if_pos bare]
    rfl
  · rw [if_neg fun code => plain ⟨code,bare⟩,if_neg bare]
    rfl

end trap

/-- When the trap frame is what its declaration says: at a trap, and where C code built
it. The frame of the first process is not. -/
theorem trap_frame (r : Registers) (v : Gate) (err ksp : BitVec 32) (f : Frame) :
    (Agrees r v err ksp ↔ r.ds = r.gs ∧ r.es = r.fs ∧
      (v.Doubled → err = r.eip ∧ r.eip = r.cs ∧ r.cs = r.eflags ∧ r.eflags = r.esp ∧ r.esp = r.ss)) ∧
    (f.Loads ↔ f.ds = f.gs ∧ f.es = f.fs) ∧
    ∃ start, trapret uinitFrame.words = some start ∧ start.ds = 0 ∧ start.es = 0 ∧ start.ds ≠ udata :=
  ⟨agrees_iff r v err ksp,f.loads_iff,_,rfl,rfl,rfl,by decide⟩

/-- The first process traps with the segments that `trapret` gave it; at vector 17 even
equal segments do not help. -/
theorem trap_frame_wrong :
    ¬Agrees ⟨0,0,0,0,0,0,0,0,0,udata,udata,0,ucode,512,4096,udata⟩ .syscall 0 0 ∧
    ¬Agrees ⟨0,0,0,0,0,0,0,udata,udata,udata,udata,0,ucode,512,4096,udata⟩ (.isr 17) 0 0 ∧ ¬uinitFrame.Loads := by
  refine ⟨fun agrees => ?_,fun agrees => ?_,fun loads => ?_⟩
  · obtain ⟨f,same,regs,-,-⟩ := agrees
    obtain rfl := Option.some.inj same
    exact absurd (congrArg Registers.ds regs) (by decide)
  · obtain ⟨f,same,regs,-,-⟩ := agrees
    obtain rfl := Option.some.inj same
    exact absurd (congrArg Registers.cs regs) (by decide)
  · exact absurd (congrArg (Option.map Registers.ds) loads) (by decide)

end Lxos.Cpu
