import Mathlib.Data.List.Basic
import Mathlib.Tactic.SplitIfs

/-! The keyboard: the line that the scancodes make up, and the commands of `sh.c`. -/
namespace Lxos.Drivers

abbrev backspaceKey : Nat := 14
abbrev enterKey : Nat := 28
abbrev capslockKey : Nat := 58
abbrev scMax : Nat := 58

def scAsciiCaps : List Char := "??1234567890-=??QWERTYUIOP[]??ASDFGHJKL;'`?\\ZXCVBNM,./??? ".toList

def scAsciiNormal : List Char := "??1234567890-=??qwertyuiop[]??asdfghjkl;'`?\\zxcvbnm,./??? ".toList

/-- `key_buffer` up to its zero, and `capslock`. -/
structure Keyboard where
  line : List Char
  capslock : Bool
deriving DecidableEq

/-- What a line makes `user_input` do besides printing. -/
inductive LineCommand
  | cls | stop | page | testWrite | testRead | none
deriving DecidableEq

def user_input (input : List Char) : LineCommand :=
  if input = "CLS".toList then .cls
  else if input = "END".toList then .stop
  else if input = "PAGE".toList then .page
  else if input = "TESTIDEW".toList then .testWrite
  else if input = "TESTIDER".toList then .testRead
  else .none

def Keyboard.letter (kb : Keyboard) (scancode : Nat) : Char :=
  (if kb.capslock then scAsciiCaps else scAsciiNormal).getD scancode '?'

/-- A scancode, and the command that it completes. -/
def keyboard_callback (kb : Keyboard) (scancode : Nat) : Keyboard × LineCommand :=
  if scancode > scMax then (kb,.none)
  else if scancode = backspaceKey then ({ kb with line := kb.line.dropLast },.none)
  else if scancode = enterKey then ({ kb with line := [] },user_input kb.line)
  else if scancode = capslockKey then ({ kb with capslock := !kb.capslock },.none)
  else ({ kb with line := kb.line ++ [kb.letter scancode] },.none)

/-- The scancode writes to no byte outside the 256 of `key_buffer`. -/
def Keyboard.Fits (kb : Keyboard) (scancode : Nat) : Prop :=
  (scancode = backspaceKey → kb.line ≠ []) ∧
    (scancode < scMax → scancode ≠ backspaceKey → scancode ≠ enterKey → kb.line.length < 255)

instance (kb : Keyboard) (scancode : Nat) : Decidable (kb.Fits scancode) := inferInstanceAs (Decidable (_ ∧ _))

/-- Scancodes that complete no line. -/
def Keyboard.type (kb : Keyboard) : List Nat → Option Keyboard
  | [] => some kb
  | scancode :: codes =>
    if kb.Fits scancode ∧ scancode ≠ enterKey then (keyboard_callback kb scancode).1.type codes else none

/-- The disk is asked for by two lines only. -/
theorem user_input_disk (input : List Char) : user_input input = .testWrite ∨ user_input input = .testRead ↔
    input = "TESTIDEW".toList ∨ input = "TESTIDER".toList := by
  unfold user_input
  constructor
  · intro asks
    by_contra neither
    obtain ⟨write,read⟩ := not_or.mp neither
    rw [if_neg write,if_neg read] at asks
    split_ifs at asks
    all_goals
      rcases asks with absurd | absurd
      · cases absurd
      · cases absurd
  · rintro (rfl | rfl)
    · exact Or.inl (by decide)
    · exact Or.inr (by decide)

theorem keyboard_callback_disk (kb : Keyboard) (scancode : Nat)
    (asks : (keyboard_callback kb scancode).2 = .testWrite ∨ (keyboard_callback kb scancode).2 = .testRead) :
    scancode = enterKey ∧ (kb.line = "TESTIDEW".toList ∨ kb.line = "TESTIDER".toList) := by
  have silent : ¬(LineCommand.none = .testWrite ∨ LineCommand.none = .testRead) := by decide
  unfold keyboard_callback at asks
  split at asks
  · exact absurd asks silent
  split at asks
  · exact absurd asks silent
  split at asks
  · exact ⟨‹_›,(user_input_disk kb.line).mp asks⟩
  split at asks
  · exact absurd asks silent
  · exact absurd asks silent

end Lxos.Drivers
