import Lxos.Drivers.Keyboard
import Lxos.Libc.String
import Mathlib.Data.List.Induction

/-! `key_buffer`, byte by byte. The keyboard keeps its line there as a string, and the
helpers that change it know no bounds. -/
namespace Lxos.Drivers
open Lxos.Bytes Lxos.Libc

abbrev keyBufferSize : Nat := 256

def keyByte (c : Char) : Byte := BitVec.ofNat 8 c.toNat

/-- The buffer with the memory around it, and every index of it that was used. -/
structure KeyBuffer where
  buffer : Chars
  capslock : Bool
  used : List Int

/-- `keyboard_callback` on the buffer. -/
def KeyBuffer.callback (kb : KeyBuffer) (scancode : Nat) : Option KeyBuffer :=
  if scancode > scMax then some kb
  else if scancode = backspaceKey then
    (backspace kb.buffer).map fun r => { kb with buffer := r.1,used := kb.used ++ r.2 }
  else if scancode = enterKey then
    some { kb with buffer := Function.update kb.buffer 0 0,used := kb.used ++ [0] }
  else if scancode = capslockKey then some { kb with capslock := !kb.capslock }
  else
    let letter := (if kb.capslock then scAsciiCaps else scAsciiNormal).getD scancode '?'
    (append kb.buffer (keyByte letter)).map fun r => { kb with buffer := r.1,used := kb.used ++ r.2 }

def KeyBuffer.press (kb : KeyBuffer) : List Nat → Option KeyBuffer
  | [] => some kb
  | scancode :: codes => (kb.callback scancode).bind fun kb => kb.press codes

/-- The buffer at boot; what lies around it is not known. -/
def KeyBuffer.start (around : Chars) : KeyBuffer :=
  ⟨fun i => if 0 ≤ i ∧ i < keyBufferSize then 0 else around i,false,[]⟩

/-- What the keys stand for. -/
def typed (codes : List Nat) : Keyboard := codes.foldl (fun kb scancode => (keyboard_callback kb scancode).1) ⟨[],false⟩

/-- The buffer has been used within its bounds, and it holds the line and its zero. -/
structure KeyBuffer.Holds (kb : KeyBuffer) (keyboard : Keyboard) : Prop where
  inside : ∀ x ∈ kb.used, 0 ≤ x ∧ x < keyBufferSize
  text : Text kb.buffer (keyboard.line.map keyByte)
  room : keyboard.line.length < keyBufferSize
  capslock : kb.capslock = keyboard.capslock

section buffer
variable {kb : KeyBuffer} {keyboard : Keyboard} {scancode : Nat} {codes : List Nat} {around : Chars}

theorem letter_plain (keyboard : Keyboard) (scancode : Nat) : keyByte (keyboard.letter scancode) ≠ 0 := by
  have letters : ('?' :: (scAsciiCaps ++ scAsciiNormal)).all (fun c => keyByte c != 0) = true := by decide
  have tables : ∀ c ∈ '?' :: (scAsciiCaps ++ scAsciiNormal), keyByte c ≠ 0 :=
    fun c inside => bne_iff_ne.mp (List.all_eq_true.mp letters c inside)
  have entry (l : List Char) (table : l = scAsciiCaps ∨ l = scAsciiNormal) : keyByte (l.getD scancode '?') ≠ 0 := by
    apply tables
    rcases Nat.lt_or_ge scancode l.length with inside | past
    · rw [List.getD_eq_getElem _ _ inside]
      have member := List.getElem_mem inside
      rcases table with rfl | rfl
      · exact List.mem_cons_of_mem _ (List.mem_append_left _ member)
      · exact List.mem_cons_of_mem _ (List.mem_append_right _ member)
    · rw [List.getD_eq_default _ _ past]
      exact List.mem_cons_self
  unfold Keyboard.letter
  split
  · exact entry _ (Or.inl rfl)
  · exact entry _ (Or.inr rfl)

theorem typed_snoc (codes : List Nat) (scancode : Nat) :
    typed (codes ++ [scancode]) = (keyboard_callback (typed codes) scancode).1 := by
  unfold typed
  rw [List.foldl_append]
  rfl

theorem press_append (kb : KeyBuffer) (codes more : List Nat) :
    kb.press (codes ++ more) = (kb.press codes).bind fun kb => kb.press more := by
  induction codes generalizing kb with
  | nil => rfl
  | cons scancode codes ih =>
    change ((kb.callback scancode).bind fun kb => kb.press (codes ++ more)) =
      ((kb.callback scancode).bind fun kb => kb.press codes).bind fun kb => kb.press more
    cases kb.callback scancode with
    | none => rfl
    | some next => exact ih next

theorem press_single (kb : KeyBuffer) (scancode : Nat) : kb.press [scancode] = kb.callback scancode := by
  change ((kb.callback scancode).bind some) = _
  cases kb.callback scancode with
  | none => rfl
  | some next => rfl

theorem KeyBuffer.Holds.short (holds : kb.Holds keyboard) : (keyboard.line.map keyByte).length < 2147483648 := by
  have room : keyboard.line.length < 256 := holds.room
  rw [List.length_map]
  omega

/-- A scancode that fits is followed by the line. -/
theorem KeyBuffer.Holds.step (holds : kb.Holds keyboard) (fits : keyboard.Fits scancode) :
    ∃ next, kb.callback scancode = some next ∧ next.Holds (keyboard_callback keyboard scancode).1 := by
  have short := holds.short
  have size : keyBufferSize = 256 := rfl
  obtain ⟨inside,text,room,caps⟩ := holds
  have used {more : List Int} (within : ∀ x ∈ more, 0 ≤ x ∧ x < keyBufferSize) (x : Int) (here : x ∈ kb.used ++ more) :
      0 ≤ x ∧ x < keyBufferSize := (List.mem_append.mp here).elim (inside x) (within x)
  unfold KeyBuffer.callback keyboard_callback
  split
  · exact ⟨kb,rfl,inside,text,room,caps⟩
  rename_i known
  split
  · rename_i back
    have some_char : keyboard.line.map keyByte ≠ [] := fun empty => fits.1 back (List.map_eq_nil_iff.mp empty)
    obtain ⟨more,erased,places⟩ := backspace_spec text short
    rw [erased]
    have length := List.length_pos_iff.mpr some_char
    rw [List.length_map] at length places
    refine ⟨_,rfl,used fun x here => ?_,?_,?_,caps⟩
    · have := (places x).mp here
      omega
    · dsimp only
      rw [List.map_dropLast]
      exact text.dropLast some_char
    · dsimp only
      rw [List.length_dropLast]
      omega
  rename_i other
  split
  · refine ⟨_,rfl,used fun x here => ?_,⟨fun i low => ?_,List.not_mem_nil⟩,Nat.zero_lt_succ _,caps⟩
    · rw [List.mem_singleton.mp here]
      decide
    · obtain rfl : i = 0 := Nat.le_zero.mp low
      exact Function.update_self (0 : Int) (0 : Byte) kb.buffer
  rename_i letter
  split
  · exact ⟨_,rfl,inside,text,room,by rw [caps]⟩
  rename_i plain
  have below : scancode < scMax := by
    change scancode ≠ scMax at plain
    omega
  have space := fits.2 below other letter
  obtain ⟨more,entered,places⟩ := append_spec text short (keyByte (keyboard.letter scancode))
  have same : (if kb.capslock then scAsciiCaps else scAsciiNormal).getD scancode '?' = keyboard.letter scancode := by
    rw [caps]
    rfl
  dsimp only
  rw [same,entered]
  rw [List.length_map] at places
  refine ⟨_,rfl,used fun x here => ?_,?_,?_,caps⟩
  · have := (places x).mp here
    omega
  · dsimp only
    rw [List.map_append,List.map_singleton]
    exact text.append (letter_plain keyboard scancode)
  · dsimp only
    rw [List.length_append,List.length_singleton]
    omega

/-- A scancode that does not fit goes past an end of the buffer. -/
theorem KeyBuffer.Holds.leaves (holds : kb.Holds keyboard) (unfit : ¬keyboard.Fits scancode) {next : KeyBuffer}
    (pressed : kb.callback scancode = some next) : ∃ x ∈ next.used, x < 0 ∨ keyBufferSize ≤ x := by
  have short := holds.short
  have room : keyboard.line.length < 256 := holds.room
  unfold KeyBuffer.callback at pressed
  by_cases back : scancode = backspaceKey
  · subst back
    have empty : keyboard.line = [] := by
      by_contra some_char
      refine unfit ⟨fun _ => some_char,fun _ apart => absurd rfl apart⟩
    obtain ⟨more,erased,places⟩ := backspace_spec holds.text short
    rw [if_neg (by decide),if_pos rfl,erased] at pressed
    cases Option.some.inj pressed
    refine ⟨-1,List.mem_append_right _ ((places _).mpr (Or.inr ?_)),Or.inl (by decide)⟩
    rw [empty]
    rfl
  · have full : (scancode < scMax ∧ scancode ≠ enterKey) ∧ keyboard.line.length = 255 := by
      by_contra free
      refine unfit ⟨fun same => absurd same back,fun below _ letter => ?_⟩
      by_contra long
      exact free ⟨⟨below,letter⟩,by omega⟩
    obtain ⟨⟨below,letter⟩,full⟩ := full
    have plain : scancode ≠ capslockKey := fun same => by
      rw [same] at below
      exact lt_irrefl _ below
    obtain ⟨more,entered,places⟩ := append_spec holds.text short
      (keyByte ((if kb.capslock then scAsciiCaps else scAsciiNormal).getD scancode '?'))
    rw [if_neg (by omega),if_neg back,if_neg letter,if_neg plain] at pressed
    dsimp only at pressed
    rw [entered] at pressed
    cases Option.some.inj pressed
    refine ⟨256,List.mem_append_right _ ((places _).mpr ?_),Or.inr (le_refl _)⟩
    rw [List.length_map,full]
    decide

theorem KeyBuffer.start_holds (around : Chars) : (KeyBuffer.start around).Holds ⟨[],false⟩ := by
  have text : Text (KeyBuffer.start around).buffer [] := by
    refine ⟨fun i low => ?_,List.not_mem_nil⟩
    obtain rfl : i = 0 := Nat.le_zero.mp low
    rfl
  exact ⟨fun x absurd => (nomatch absurd),text,Nat.zero_lt_succ _,rfl⟩

/-- After every scancode the buffer holds what was typed since Enter. -/
def LineKept (around : Chars) (codes : List Nat) : Prop :=
  ∀ p, p <+: codes → ∃ kb, (KeyBuffer.start around).press p = some kb ∧ kb.Holds (typed p)

/-- Backspace is pressed on a line that has a character, and a character on one that
has room. -/
def Fitting (codes : List Nat) : Prop := ∀ p scancode, p ++ [scancode] <+: codes → (typed p).Fits scancode

theorem line_kept (around : Chars) (codes : List Nat) : LineKept around codes ↔ Fitting codes := by
  constructor
  · intro kept p scancode more
    by_contra unfit
    obtain ⟨kb,before,holds⟩ := kept p ((List.prefix_append _ _).trans more)
    obtain ⟨next,after,later⟩ := kept _ more
    rw [press_append,before,Option.bind_some,press_single] at after
    obtain ⟨x,used,beyond⟩ := holds.leaves unfit after
    have := later.inside x used
    omega
  · intro fitting p
    induction p using List.reverseRecOn with
    | nil => exact fun _ => ⟨_,rfl,KeyBuffer.start_holds around⟩
    | append_singleton p scancode ih =>
      intro more
      obtain ⟨kb,before,holds⟩ := ih ((List.prefix_append _ _).trans more)
      obtain ⟨next,pressed,held⟩ := holds.step (fitting p scancode more)
      refine ⟨next,?_,?_⟩
      · rw [press_append,before,Option.bind_some,press_single,pressed]
      · rw [typed_snoc]
        exact held

/-- Backspace on an empty line writes before the buffer. -/
theorem backspace_first : ¬∀ around codes, LineKept around codes := by
  intro kept
  obtain ⟨kb,pressed,holds⟩ := kept (fun _ => 0) [backspaceKey] [backspaceKey] (List.prefix_refl _)
  obtain ⟨x,used,beyond⟩ := (KeyBuffer.start_holds fun _ => 0).leaves (by decide) ((press_single _ _).symm.trans pressed)
  have := holds.inside x used
  omega

end buffer

end Lxos.Drivers
