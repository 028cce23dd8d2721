import Lxos.Drivers.Kprintf
import Mathlib.Logic.Function.Basic

/-! The screen of `screen.c`: the video memory, seen from its address, and the cursor in
two registers of the controller. Every write to the memory is recorded. -/
namespace Lxos.Drivers
open Lxos.Bytes

abbrev maxRows : Int := 25
abbrev maxCols : Int := 80
abbrev whiteOnBlack : Byte := 15
abbrev redOnBlack : Byte := 12
abbrev regScreenCtrl : Nat := 980
abbrev regScreenData : Nat := 981

structure Display where
  video : Int → Byte
  index : Byte
  register : Byte → Byte

/-- With the display go the offsets written and the displays shown after each character. -/
structure Screen extends Display where
  written : List Int
  shown : List Display

def Screen.poke (s : Screen) (offset : Int) (b : Byte) : Screen :=
  { s with video := Function.update s.video offset b,written := s.written ++ [offset] }

def Screen.show (s : Screen) : Screen := { s with shown := s.shown ++ [s.toDisplay] }

def port_byte_out (s : Screen) (port : Nat) (data : Byte) : Screen :=
  if port = regScreenCtrl then { s with index := data }
  else if port = regScreenData then { s with register := Function.update s.register s.index data }
  else s

def port_byte_in (s : Screen) (port : Nat) : Byte := if port = regScreenData then s.register s.index else s.index

def get_cursor_offset (s : Screen) : Screen × Int :=
  let s := port_byte_out s regScreenCtrl 14
  let offset := (port_byte_in s regScreenData).toNat <<< 8
  let s := port_byte_out s regScreenCtrl 15
  let offset := offset + (port_byte_in s regScreenData).toNat
  (s,offset * 2)

def set_cursor_offset (s : Screen) (offset : Int) : Screen :=
  let offset := offset.tdiv 2
  let s := port_byte_out s regScreenCtrl 14
  let s := port_byte_out s regScreenData (BitVec.ofInt 8 (offset >>> (8 : Nat)))
  let s := port_byte_out s regScreenCtrl 15
  port_byte_out s regScreenData (BitVec.ofInt 8 offset)

def get_offset (col row : Int) : Int := 2 * (row * maxCols + col)

def get_offset_row (offset : Int) : Int := offset.tdiv (2 * maxCols)

def get_offset_col (offset : Int) : Int := (offset - get_offset_row offset * 2 * maxCols).tdiv 2

/-- `memory_copy` of `mem.c`, from byte `i` on. -/
def copyLoop (source dest : Int) : Nat → Int → Screen → Screen
  | 0, _, s => s
  | n+1, i, s => copyLoop source dest n (i+1) (s.poke (dest+i) (s.video (source+i)))

def memory_copy (s : Screen) (source dest : Int) (nbytes : Nat) : Screen := copyLoop source dest nbytes 0 s

/-- Row `i` and those after it are copied up. -/
def rowsLoop : Nat → Int → Screen → Screen
  | 0, _, s => s
  | n+1, i, s => rowsLoop n (i+1) (memory_copy s (get_offset 0 i) (get_offset 0 (i-1)) (maxCols*2).toNat)

def lastLineLoop (last_line : Int) : Nat → Int → Screen → Screen
  | 0, _, s => s
  | n+1, i, s => lastLineLoop last_line n (i+1) (s.poke (last_line+i) 0)

/-- The screen and the offset when there is room for a character. -/
def scrolled (s : Screen) (offset : Int) : Screen × Int :=
  if offset ≥ maxCols*maxRows*2 then
    let s := rowsLoop (maxRows-1).toNat 1 s
    (lastLineLoop (get_offset 0 (maxRows-1)) (maxCols*2).toNat 0 s,offset - 2*maxCols)
  else (s,offset)

/-- What `print_char` does with the character: the screen, the row and the next offset. -/
def printed (s : Screen) (c attr : Byte) (row offset : Int) : Screen × Int × Int :=
  if c = 10 then
    let row := get_offset_row offset
    (s,row,get_offset 0 (row+1))
  else if c = 8 then ((s.poke offset 32).poke (offset+1) attr,row,offset)
  else ((s.poke offset c).poke (offset+1) attr,row,offset+2)

def print_char (s : Screen) (c : Byte) (col row : Int) (attr : Byte) : Screen × Int :=
  let attr := if attr = 0 then whiteOnBlack else attr
  let start := if col ≥ 0 ∧ row ≥ 0 then (s,get_offset col row) else get_cursor_offset s
  let p := printed start.1 c attr row start.2
  let r := scrolled p.1 p.2.2
  if col ≥ maxCols ∨ p.2.1 ≥ maxRows then
    ((r.1.poke (2*maxRows*maxCols-2) 69).poke (2*maxRows*maxCols-1) redOnBlack,get_offset col p.2.1)
  else (set_cursor_offset r.1 r.2,r.2)

/-- The loop of `kprint_at` over the message, which ends before its zero. -/
def kprintLoop : Screen → Int → Int → List Byte → Screen
  | s, _, _, [] => s
  | s, col, row, c :: message =>
    if c = 0 then s
    else
      let r := print_char s c col row redOnBlack
      kprintLoop r.1.show (get_offset_col r.2) (get_offset_row r.2) message

def kprint_at (s : Screen) (message : List Byte) (col row : Int) : Screen :=
  if col ≥ 0 ∧ row ≥ 0 then kprintLoop s col row message
  else
    let r := get_cursor_offset s
    kprintLoop r.1 (get_offset_col r.2) (get_offset_row r.2) message

def kprint (s : Screen) (message : List Byte) : Screen := kprint_at s message (-1) (-1)

def kprint_backspace (s : Screen) : Screen :=
  let r := get_cursor_offset s
  let offset := r.2 - 2
  (print_char r.1 8 (get_offset_col offset) (get_offset_row offset) whiteOnBlack).1.show

def kputchar (s : Screen) (c : Byte) : Screen := (print_char s c (-1) (-1) whiteOnBlack).1.show

/-- Cell `i` and those after it. -/
def clearLoop : Nat → Int → Screen → Screen
  | 0, _, s => s
  | n+1, i, s => clearLoop n (i+1) ((s.poke (i*2) 32).poke (i*2+1) whiteOnBlack)

def clear_screen (s : Screen) : Screen :=
  (set_cursor_offset (clearLoop (maxCols*maxRows).toNat 0 s) (get_offset 0 0)).show

/-- The bytes that are written to the console. -/
def screenewrite (s : Screen) (buf : List Byte) : Screen := buf.foldl kputchar s

/-- A call to the console. Texts lie outside the video memory. -/
inductive Call
  | kprint (message : List Byte)
  | kprintf (mem : Nat → Byte) (fmt : Nat) (args : Nat → BitVec 32)
  | kprint_backspace
  | clear_screen
  | write (buf : List Byte)

/-- A call that ends: all do, but for a `kprintf` whose text never does. -/
def Screen.call (s : Screen) : Call → Option Screen
  | .kprint message => some (kprint s message)
  | .kprintf mem fmt args =>
    let s := kprint s kernelPrefix
    let s := if fmt = 0 then kprint s kernelError else s
    (kprintfLoop mem args 4294967296 fmt 0).map fun o => o.out.foldl kputchar s
  | .kprint_backspace => some (kprint_backspace s)
  | .clear_screen => some (clear_screen s)
  | .write buf => some (screenewrite s buf)

def Screen.run (s : Screen) : List Call → Option Screen
  | [] => some s
  | c :: calls => (s.call c).bind fun s => s.run calls

/-- The cursor registers, as the number of a cell. -/
def Display.cursor (d : Display) : Nat := (d.register 14).toNat * 256 + (d.register 15).toNat

/-- Writes between two offsets and nowhere else; all but the video memory is as it was. -/
structure Screen.Wrote (s s' : Screen) (low high : Int) : Prop where
  index : s'.index = s.index
  register : s'.register = s.register
  shown : s'.shown = s.shown
  inside : ∀ o ∈ s'.written, o ∈ s.written ∨ low ≤ o ∧ o < high

section memory
variable {s s' s'' : Screen} {low high x source dest i : Int} {n : Nat}

theorem Screen.Wrote.refl (s : Screen) (low high : Int) : s.Wrote s low high := ⟨rfl,rfl,rfl,fun _ => Or.inl⟩

theorem Screen.Wrote.trans (first : s.Wrote s' low high) (second : s'.Wrote s'' low high) : s.Wrote s'' low high := by
  refine ⟨second.index.trans first.index,second.register.trans first.register,second.shown.trans first.shown,
    fun o written => ?_⟩
  rcases second.inside o written with old | new
  · exact first.inside o old
  · exact .inr new

theorem Screen.Wrote.poke {offset : Int} (b : Byte) (above : low ≤ offset) (below : offset < high) :
    s.Wrote (s.poke offset b) low high := by
  refine ⟨rfl,rfl,rfl,fun o written => ?_⟩
  rcases List.mem_append.mp written with old | new
  · exact .inl old
  · rw [List.mem_singleton.mp new]
    exact .inr ⟨above,below⟩

theorem copyLoop_spec (n : Nat) (i : Int) (s : Screen) (apart : dest + i + n ≤ source + i) (above : low ≤ dest + i)
    (below : dest + i + n ≤ high) : s.Wrote (copyLoop source dest n i s) low high ∧
      ∀ x, (copyLoop source dest n i s).video x =
        if dest + i ≤ x ∧ x < dest + i + n then s.video (source + (x - dest)) else s.video x := by
  induction n generalizing i s with
  | zero => exact ⟨.refl s low high,fun x => (if_neg (by omega)).symm⟩
  | succ n ih =>
    have step := @ih (i+1) (s.poke (dest+i) (s.video (source+i))) (by omega) (by omega) (by omega)
    unfold copyLoop
    refine ⟨(Screen.Wrote.poke _ above (by omega)).trans step.1,fun x => ?_⟩
    rw [step.2 x]
    change (if _ then Function.update s.video _ _ _ else Function.update s.video _ _ _) = _
    split
    · rw [if_pos (by omega),Function.update_of_ne (by omega)]
    · rcases eq_or_ne x (dest + i) with rfl | other
      · rw [if_pos (by omega),Function.update_self]
        congr 1
        omega
      · rw [if_neg (by omega),Function.update_of_ne other]

theorem rowsLoop_spec (n : Nat) (i : Int) (s : Screen) (first : 1 ≤ i) (last : i + n ≤ 25) :
    s.Wrote (rowsLoop n i s) 0 4000 ∧ ∀ x, (rowsLoop n i s).video x =
      if 160 * (i-1) ≤ x ∧ x < 160 * (i-1+n) then s.video (x + 160) else s.video x := by
  induction n generalizing i s with
  | zero => exact ⟨.refl s 0 4000,fun x => (if_neg (by omega)).symm⟩
  | succ n ih =>
    have source : get_offset 0 i = 2 * (i * 80 + 0) := rfl
    have dest : get_offset 0 (i-1) = 2 * ((i-1) * 80 + 0) := rfl
    have size : (maxCols * 2).toNat = 160 := rfl
    have copy := @copyLoop_spec 0 4000 (get_offset 0 i) (get_offset 0 (i-1)) (maxCols*2).toNat 0 s (by omega) (by omega)
      (by omega)
    have step := ih (i+1) (memory_copy s (get_offset 0 i) (get_offset 0 (i-1)) (maxCols*2).toNat) (by omega) (by omega)
    unfold rowsLoop
    refine ⟨copy.1.trans step.1,fun x => ?_⟩
    rw [step.2 x]
    unfold memory_copy
    rw [copy.2 x,copy.2 (x+160),source,dest,size]
    split
    · rw [if_neg (by omega),if_pos (by omega)]
    · split
      · rw [if_pos (by omega)]
        congr 1
        omega
      · rw [if_neg (by omega)]

theorem lastLineLoop_spec (last_line : Int) (n : Nat) (i : Int) (s : Screen) (above : 0 ≤ last_line + i)
    (below : last_line + i + n ≤ 4000) : s.Wrote (lastLineLoop last_line n i s) 0 4000 ∧
      ∀ x, (lastLineLoop last_line n i s).video x =
        if last_line + i ≤ x ∧ x < last_line + i + n then 0 else s.video x := by
  induction n generalizing i s with
  | zero => exact ⟨.refl s 0 4000,fun x => (if_neg (by omega)).symm⟩
  | succ n ih =>
    have step := ih (i+1) (s.poke (last_line+i) 0) (by omega) (by omega)
    unfold lastLineLoop
    refine ⟨(Screen.Wrote.poke _ above (by omega)).trans step.1,fun x => ?_⟩
    rw [step.2 x]
    change (if _ then _ else Function.update s.video _ _ _) = _
    split
    · rw [if_pos (by omega)]
    · rcases eq_or_ne x (last_line + i) with rfl | other
      · rw [if_pos (by omega),Function.update_self]
      · rw [if_neg (by omega),Function.update_of_ne other]

theorem clearLoop_spec (n : Nat) (i : Int) (s : Screen) (above : 0 ≤ i) (below : i + n ≤ 2000) :
    s.Wrote (clearLoop n i s) 0 4000 ∧ ∀ x, (clearLoop n i s).video x =
      if i*2 ≤ x ∧ x < (i+n)*2 then (if x % 2 = 0 then 32 else whiteOnBlack) else s.video x := by
  induction n generalizing i s with
  | zero => exact ⟨.refl s 0 4000,fun x => (if_neg (by omega)).symm⟩
  | succ n ih =>
    have step := ih (i+1) ((s.poke (i*2) 32).poke (i*2+1) whiteOnBlack) (by omega) (by omega)
    unfold clearLoop
    refine ⟨((Screen.Wrote.poke _ (by omega) (by omega)).trans (.poke _ (by omega) (by omega))).trans step.1,fun x => ?_⟩
    rw [step.2 x]
    change (if _ then _ else Function.update (Function.update s.video _ _) _ _ _) = _
    by_cases later : (i+1)*2 ≤ x ∧ x < (i+1+n)*2
    · have inside : i*2 ≤ x ∧ x < (i+(n+1 : Nat))*2 := by omega
      rw [if_pos later,if_pos inside]
    · rw [if_neg later]
      rcases eq_or_ne x (i*2+1) with rfl | other
      · rw [if_pos (by omega),Function.update_self,if_neg (by omega)]
      rcases eq_or_ne x (i*2) with rfl | other'
      · rw [if_pos (by omega),Function.update_of_ne other,Function.update_self,if_pos (by omega)]
      · rw [if_neg (by omega),Function.update_of_ne other,Function.update_of_ne other']

/-- The rows have moved up and the last one is zero. -/
theorem scrolled_spec (s : Screen) {offset : Int} (full : 4000 ≤ offset) :
    (scrolled s offset).2 = offset - 160 ∧ s.Wrote (scrolled s offset).1 0 4000 ∧
      ∀ x, 0 ≤ x → x < 4000 → (scrolled s offset).1.video x = if x < 3840 then s.video (x+160) else 0 := by
  have rows := rowsLoop_spec 24 1 s (le_refl 1) (by omega)
  have line := lastLineLoop_spec (get_offset 0 (maxRows-1)) 160 0 (rowsLoop 24 1 s) (by decide) (by decide)
  have start : get_offset 0 (maxRows-1) = 3840 := rfl
  have past : offset ≥ maxCols*maxRows*2 := full
  have height : (maxRows-1).toNat = 24 := rfl
  have width : (maxCols*2).toNat = 160 := rfl
  unfold scrolled
  rw [if_pos past,height,width]
  refine ⟨rfl,rows.1.trans line.1,fun x above below => ?_⟩
  rw [line.2 x,rows.2 x,start]
  split
  · rw [if_neg (by omega)]
  · rw [if_pos (by omega),if_pos (by omega)]

end memory

section cursor
variable {s : Screen} {p : Nat}

theorem get_cursor_offset_eq (s : Screen) : get_cursor_offset s = ({ s with index := 15 },2 * (s.cursor : Int)) := by
  have value : (s.register 14).toNat <<< 8 + (s.register 15).toNat = s.cursor := by
    unfold Display.cursor
    rw [Nat.shiftLeft_eq]
  refine Prod.ext rfl ?_
  change (((s.register 14).toNat <<< 8 + (s.register 15).toNat : Nat) : Int) * 2 = _
  rw [value,Int.mul_comm]

theorem set_cursor_offset_spec (s : Screen) (low : p < 2000) :
    (set_cursor_offset s (2 * p)).cursor = p ∧ (set_cursor_offset s (2 * p)).video = s.video ∧
      (set_cursor_offset s (2 * p)).written = s.written ∧ (set_cursor_offset s (2 * p)).shown = s.shown := by
  refine ⟨?_,rfl,rfl,rfl⟩
  have half : (2 * (p : Int)).tdiv 2 = p := Int.mul_tdiv_cancel_left _ (by decide)
  have high : BitVec.ofInt 8 ((p : Int) >>> (8 : Nat)) = BitVec.ofNat 8 (p / 256) := by
    rw [Int.shiftRight_eq_div_pow]
    exact BitVec.ofInt_natCast 8 (p / 256)
  unfold set_cursor_offset
  dsimp only
  rw [half,high,BitVec.ofInt_natCast]
  change (BitVec.ofNat 8 (p / 256)).toNat * 256 + (BitVec.ofNat 8 p).toNat = p
  rw [BitVec.toNat_ofNat,BitVec.toNat_ofNat]
  omega

end cursor

end Lxos.Drivers
