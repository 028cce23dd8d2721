import Lxos.Bio.Buffer
import Lxos.Library.Fifo

/-! The disk driver of `ide.c`, between the queue of buffers and the controller. The
`qnext` fields of all buffers are kept together with `idequeue`; buffers are named by
the elements of any type. -/
namespace Lxos.Drivers
open Lxos.Bytes Lxos.Fs Lxos.Bio Lxos.Fifo

abbrev fssize : Nat := 1000

/-- What `ide.c` prints. -/
inductive Message
  | incorrectBlockno | nothingToDo | noDisk1
deriving DecidableEq, Repr

def Message.text : Message → String
  | incorrectBlockno => "incorrect blockno"
  | nothingToDo => "iderw: nothing to do"
  | noDisk1 => "iderw: ide disk 1 not present"

/-- The registers of the controller at ports `0x1f2` to `0x1f6`. -/
structure TaskFile where
  count : Nat
  low : Nat
  mid : Nat
  high : Nat
  device : Nat
deriving DecidableEq

/-- The drive and the 28 bits of the sector number that the controller sees. -/
def TaskFile.drive (t : TaskFile) : Nat := t.device / 16 % 2

def TaskFile.sector (t : TaskFile) : Nat := t.low + t.mid * 256 + t.high * 65536 + t.device % 16 * 16777216

/-- A command with what `outsl` sends. -/
inductive Command
  | read (t : TaskFile)
  | write (t : TaskFile) (data : Block)

structure Ide (β : Type) where
  buf : β → Buf
  queue : Queue β
  havedisk1 : Bool
  /-- Started and not finished. -/
  command : Option Command
  /-- What `insl` would get. -/
  port : Block
  sectors : Nat → Nat → Block
  printed : List Message

section driver
variable {β : Type} [DecidableEq β]

def Ide.note (st : Ide β) (p : Prop) [Decidable p] (m : Message) : Ide β :=
  if p then { st with printed := m :: st.printed } else st

/-- What `idestart` sends for a buffer. -/
def taskFile (v : Buf) : TaskFile :=
  let sector := v.blockno
  ⟨1,sector &&& 255,sector >>> 8 &&& 255,sector >>> 16 &&& 255,224 ||| (v.dev &&& 1) <<< 4 ||| sector >>> 24 &&& 15⟩

def order (v : Buf) : Command :=
  if v.flags &&& bDirty = 0 then .read (taskFile v) else .write (taskFile v) v.data

/-- `idewait` spins while a command is in progress. -/
def idestart (st : Ide β) (b : β) : Option (Ide β) :=
  let v := st.buf b
  let st := st.note (v.blockno ≥ fssize) .incorrectBlockno
  if st.command.isSome then none else some { st with command := some (order v) }

def ideint_callback (st : Ide β) : Option (Ide β) :=
  match st.queue.head with
  | none => some st
  | some b =>
    let v := st.buf b
    let data := if v.flags &&& bDirty = 0 then st.port else v.data
    let st := { st with
      queue := st.queue.pop b
      buf := Function.update st.buf b { v with data := data,flags := (v.flags ||| bValid) &&& ~~~bDirty } }
    match st.queue.head with
    | none => some st
    | some b => idestart st b

/-- The controller finishes its command. -/
def finish (st : Ide β) : Command → Ide β
  | .read t => { st with command := none,port := st.sectors t.drive t.sector }
  | .write t data =>
    { st with
      command := none
      port := data
      sectors := fun d n => if d = t.drive ∧ n = t.sector then data else st.sectors d n }

/-- The one interrupt of a command. -/
def interrupt (st : Ide β) : Option (Ide β) :=
  match st.command with
  | none => none
  | some c => ideint_callback (finish st c)

/-- The condition that ends the wait in `iderw`. -/
def Done (v : Buf) : Prop := v.flags &&& (bValid ||| bDirty) = bValid

instance (v : Buf) : Decidable (Done v) := inferInstanceAs (Decidable (_ = _))

/-- `iderw` up to its wait. -/
def iderw (fuel : Nat) (st : Ide β) (b : β) : Option (Ide β) :=
  let v := st.buf b
  let st := st.note (Done v) .nothingToDo
  let st := st.note (v.dev ≠ 0 ∧ !st.havedisk1) .noDisk1
  let queue := st.queue.store (.next b) none
  match queue.walk fuel .head with
  | none => none
  | some p =>
    let st := { st with queue := queue.store p (some b) }
    if st.queue.head = some b then idestart st b else some st

end driver

section buffers
variable (v : Buf)

/-- Where a buffer is transferred. -/
def target : Nat × Nat := (v.dev % 2,v.blockno % 268435456)

theorem taskFile_target : ((taskFile v).drive,(taskFile v).sector) = target v := by
  have device (d h : Nat) (small : d < 2) (low : h < 16) :
      (224 ||| d <<< 4 ||| h) / 16 % 2 = d ∧ (224 ||| d <<< 4 ||| h) % 16 = h := by
    have all : ∀ d : Fin 2, ∀ h : Fin 16, (224 ||| d.val <<< 4 ||| h.val) / 16 % 2 = d.val ∧
        (224 ||| d.val <<< 4 ||| h.val) % 16 = h.val := by decide
    exact all ⟨d,small⟩ ⟨h,low⟩
  have mask (n k : Nat) : n &&& (2 ^ k - 1) = n % 2 ^ k := Nat.and_two_pow_sub_one_eq_mod n k
  have byte (n : Nat) : n &&& 255 = n % 256 := mask n 8
  have nibble (n : Nat) : n &&& 15 = n % 16 := mask n 4
  have bit (n : Nat) : n &&& 1 = n % 2 := mask n 1
  obtain ⟨drive,rest⟩ := device (v.dev % 2) ((v.blockno >>> 24) % 16) (Nat.mod_lt _ (by decide)) (Nat.mod_lt _ (by decide))
  unfold target
  apply Prod.ext
  · simp only [taskFile,TaskFile.drive,bit,nibble]
    exact drive
  · simp only [taskFile,TaskFile.sector,byte,bit,nibble]
    rw [rest]
    simp only [Nat.shiftRight_eq_div_pow]
    omega

theorem target_eq (small : v.blockno < 268435456) : target v = (v.dev % 2,v.blockno) := by
  unfold target
  rw [Nat.mod_eq_of_lt small]

/-- A buffer to write, or not yet read, is waited for. -/
theorem wanted_iff : ¬Done v ↔ v.flags &&& bDirty ≠ 0 ∨ v.flags &&& bValid = 0 := by
  have valid : v.flags &&& bValid = if v.flags.getLsbD 1 then bValid else 0 := BitVec.and_twoPow v.flags 1
  have dirty : v.flags &&& bDirty = if v.flags.getLsbD 2 then bDirty else 0 := BitVec.and_twoPow v.flags 2
  unfold Done
  rw [BitVec.and_or_distrib_left,valid,dirty]
  cases v.flags.getLsbD 1
  all_goals
    cases v.flags.getLsbD 2
    all_goals decide

theorem done_transferred (data : Block) : Done { v with data := data,flags := (v.flags ||| bValid) &&& ~~~bDirty } := by
  unfold Done
  have clear : (~~~bDirty &&& (bValid ||| bDirty) : BitVec 32) = bValid := by decide
  dsimp only
  rw [BitVec.and_assoc,clear]
  ext i small
  simp only [BitVec.getElem_and,BitVec.getElem_or]
  cases v.flags[i] <;> simp

end buffers

end Lxos.Drivers
