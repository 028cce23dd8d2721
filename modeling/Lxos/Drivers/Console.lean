import Lxos.Drivers.Screen
import Lxos.Library.Terminal
import Mathlib.Data.List.Forall2

/-! The screen shows a terminal of 25 rows and 80 columns: after each character of any
calls to the console its cells and its cursor are those of the terminal. -/
namespace Lxos.Drivers
open Lxos.Bytes Lxos.Terminals

/-- A character with its attribute. -/
abbrev Cell := Byte × Byte

/-- What a terminal is given. -/
inductive Event
  | char (c attr : Byte)
  | back
  | clear

/-- A character, a new line, or a blank for 0x08. -/
def type (t : Terminal 25 80 Cell) (c attr : Byte) : Terminal 25 80 Cell :=
  if c = 10 then t.feed (0,0) else if c = 8 then t.write (32,attr) else (t.write (c,attr)).advance (0,0)

def after (t : Terminal 25 80 Cell) : Event → Terminal 25 80 Cell
  | .char c attr => type t c attr
  | .back => t.retreat.write (32,whiteOnBlack)
  | .clear => t.clear (32,whiteOnBlack)

/-- A message up to its zero. -/
def messageEvents (message : List Byte) : List Event := (message.takeWhile (· ≠ 0)).map (.char · redOnBlack)

def Call.events : Call → Option (List Event)
  | .kprint message => some (messageEvents message)
  | .kprintf mem fmt args => (kprintfLoop mem args 4294967296 fmt 0).map fun o =>
      messageEvents kernelPrefix ++ (if fmt = 0 then messageEvents kernelError else []) ++ o.out.map (.char · whiteOnBlack)
  | .kprint_backspace => some [.back]
  | .clear_screen => some [.clear]
  | .write buf => some (buf.map (.char · whiteOnBlack))

def events : List Call → Option (List Event)
  | [] => some []
  | c :: calls => c.events.bind fun es => (events calls).map (es ++ ·)

/-- The cells of the video memory. -/
def Display.cell (d : Display) (r c : Nat) : Cell := (d.video (2*(r*80+c)),d.video (2*(r*80+c)+1))

def Display.Cells (d : Display) (t : Terminal 25 80 Cell) : Prop := ∀ r < 25, ∀ c < 80, d.cell r c = t.cell r c

structure Display.Shows (d : Display) (t : Terminal 25 80 Cell) : Prop where
  cells : d.Cells t
  cursor : d.cursor = t.place

/-- The terminal that a display with its cursor on the screen shows. -/
def Display.terminal (d : Display) (low : d.cursor < 2000) : Terminal 25 80 Cell where
  cell := d.cell
  row := d.cursor / 80
  col := d.cursor % 80
  row_low := by omega
  col_low := Nat.mod_lt _ (by decide)

theorem Display.shows_terminal (d : Display) (low : d.cursor < 2000) : d.Shows (d.terminal low) :=
  ⟨fun _ _ _ _ => rfl,by
    change d.cursor = d.cursor / 80 * 80 + d.cursor % 80
    omega⟩

section cells
variable {s s' : Screen} {t : Terminal 25 80 Cell} {c attr : Byte} {col row : Int}

theorem write_cells (cells : s.Cells t) (a b : Byte) {offset : Int} (here : offset = 2 * t.place) :
    ((s.poke offset a).poke (offset+1) b).Cells (t.write (a,b)) ∧
      s.Wrote ((s.poke offset a).poke (offset+1) b) 0 4000 := by
  have low := t.place_low
  have column := t.col_low
  unfold Terminal.place at here low
  refine ⟨fun r inside c inside' => ?_,.trans (.poke _ (by omega) (by omega)) (.poke _ (by omega) (by omega))⟩
  have old := cells r inside c inside'
  change (Function.update (Function.update s.video _ a) _ b _,Function.update (Function.update s.video _ a) _ b _) =
    if r = t.row ∧ c = t.col then (a,b) else t.cell r c
  by_cases same : r = t.row ∧ c = t.col
  · have first : (2 * ((r : Int) * 80 + c)) = offset := by omega
    rw [if_pos same,first,Function.update_self,Function.update_of_ne (by omega),Function.update_self]
  · rw [if_neg same,Function.update_of_ne (by omega),Function.update_of_ne (by omega),Function.update_of_ne (by omega),
      Function.update_of_ne (by omega)]
    exact old

/-- The next row, after which the screen has scrolled when it was the last. -/
theorem feed_cells (cells : s.Cells t) {offset : Int} (next : offset = 160 * (t.row + 1)) :
    (scrolled s offset).1.Cells (t.feed (0,0)) ∧ (scrolled s offset).2 = 2 * (t.feed (0,0)).place ∧
      s.Wrote (scrolled s offset).1 0 4000 := by
  have row := t.row_low
  unfold Terminal.feed
  by_cases more : t.row + 1 < 25
  · have inside : ¬offset ≥ maxCols*maxRows*2 := by
      change ¬offset ≥ 4000
      omega
    rw [dif_pos more,scrolled,if_neg inside]
    refine ⟨cells,?_,.refl s 0 4000⟩
    change offset = 2 * (((t.row + 1) * 80 + 0 : Nat) : Int)
    omega
  · obtain ⟨lower,wrote,video⟩ := scrolled_spec s (by omega : 4000 ≤ offset)
    rw [dif_neg more]
    refine ⟨fun r inside c inside' => ?_,?_,wrote⟩
    · unfold Display.cell
      rw [video _ (by omega) (by omega),video _ (by omega) (by omega)]
      dsimp only
      by_cases last : r + 1 < 25
      · rw [if_pos last,if_pos (by omega),if_pos (by omega),← cells (r+1) last c inside']
        unfold Display.cell
        congr 2
        · omega
        · omega
      · rw [if_neg last,if_neg (by omega),if_neg (by omega)]
    · change (scrolled s offset).2 = 2 * ((t.row * 80 + 0 : Nat) : Int)
      omega

theorem advance_cells (cells : s.Cells t) {offset : Int} (next : offset = 2 * t.place + 2) :
    (scrolled s offset).1.Cells (t.advance (0,0)) ∧ (scrolled s offset).2 = 2 * (t.advance (0,0)).place ∧
      s.Wrote (scrolled s offset).1 0 4000 := by
  have row := t.row_low
  have column := t.col_low
  unfold Terminal.place at next
  unfold Terminal.advance
  by_cases more : t.col + 1 < 80
  · have inside : ¬offset ≥ maxCols*maxRows*2 := by
      change ¬offset ≥ 4000
      omega
    rw [dif_pos more,scrolled,if_neg inside]
    refine ⟨cells,?_,.refl s 0 4000⟩
    change offset = 2 * ((t.row * 80 + (t.col + 1) : Nat) : Int)
    omega
  · rw [dif_neg more]
    exact feed_cells cells (by omega)

/-- A character at the place of the terminal, whatever the cursor is. -/
theorem printed_cells (cells : s.Cells t) (attr : Byte) (below : row < 25) {offset : Int} (here : offset = 2 * t.place) :
    let p := printed s c attr row offset
    (scrolled p.1 p.2.2).1.Cells (type t c attr) ∧ (scrolled p.1 p.2.2).2 = 2 * (type t c attr).place ∧
      s.Wrote (scrolled p.1 p.2.2).1 0 4000 ∧ p.2.1 < 25 := by
  have low := t.place_low
  have row_low := t.row_low
  have column := t.col_low
  dsimp only
  unfold printed type
  split
  · have line : get_offset_row offset = t.row := by
      unfold get_offset_row Terminal.place at *
      change offset.tdiv 160 = _
      rw [Int.tdiv_eq_ediv_of_nonneg (by omega)]
      omega
    have next : get_offset 0 (get_offset_row offset + 1) = 160 * (t.row + 1) := by
      rw [line]
      change 2 * (((t.row : Int) + 1) * 80 + 0) = _
      omega
    obtain ⟨cells',place,wrote⟩ := feed_cells cells next
    refine ⟨cells',place,wrote,?_⟩
    change get_offset_row offset < 25
    omega
  split
  · obtain ⟨cells',wrote⟩ := write_cells cells 32 attr here
    have inside : ¬offset ≥ maxCols*maxRows*2 := by
      change ¬offset ≥ 4000
      omega
    unfold scrolled
    rw [if_neg inside]
    exact ⟨cells',here,wrote,below⟩
  · obtain ⟨cells',wrote⟩ := write_cells cells c attr here
    obtain ⟨cells'',place,wrote'⟩ := advance_cells cells' (by rw [here]; rfl : offset + 2 = 2 * (t.write (c,attr)).place + 2)
    exact ⟨cells'',place,wrote.trans wrote',below⟩

end cells

/-- The screen shows a terminal, has shown others before, and was written in bounds. -/
structure Sim (s : Screen) (t : Terminal 25 80 Cell) (ts : List (Terminal 25 80 Cell)) : Prop where
  shows : s.Shows t
  inside : ∀ o ∈ s.written, 0 ≤ o ∧ o < 4000
  shown : List.Forall₂ Display.Shows s.shown ts

/-- From one screen to another the terminal is given events. -/
def Follows (s s' : Screen) (es : List Event) : Prop :=
  ∀ t ts, Sim s t ts → Sim s' (es.foldl after t) (ts ++ states after t es)

/-- Column and row, or the cursor, are the place of the terminal. -/
def Aimed (s : Screen) (t : Terminal 25 80 Cell) (col row : Int) : Prop :=
  col < 80 ∧ row < 25 ∧ (if col ≥ 0 ∧ row ≥ 0 then row * 80 + col else s.cursor) = t.place

section simulation
variable {s s' s'' : Screen} {t : Terminal 25 80 Cell} {ts : List (Terminal 25 80 Cell)} {es es' : List Event}
variable {c attr : Byte} {col row low high : Int}

theorem Follows.refl (s : Screen) : Follows s s [] := by
  intro t ts sim
  rw [states,List.append_nil]
  exact sim

theorem Follows.trans (first : Follows s s' es) (second : Follows s' s'' es') : Follows s s'' (es ++ es') := by
  intro t ts sim
  have later := second _ _ (first t ts sim)
  rw [List.foldl_append,states_append,← List.append_assoc]
  exact later

theorem set_cursor_sim (cells : s.Cells t) (inside : ∀ o ∈ s.written, 0 ≤ o ∧ o < 4000)
    (shown : List.Forall₂ Display.Shows s.shown ts) {offset : Int} (here : offset = 2 * t.place) :
    Sim (set_cursor_offset s offset).show t (ts ++ [t]) := by
  subst here
  obtain ⟨cursor,video,written,before⟩ := set_cursor_offset_spec s t.place_low
  have display : (set_cursor_offset s (2 * t.place)).Shows t := by
    refine ⟨fun r low c low' => ?_,cursor⟩
    unfold Display.cell
    rw [video]
    exact cells r low c low'
  refine ⟨⟨display.cells,display.cursor⟩,fun o member => inside o (written ▸ member),?_⟩
  change List.Forall₂ _ ((set_cursor_offset s (2 * t.place)).shown ++ [_]) _
  rw [before]
  exact List.rel_append shown (.cons display .nil)

theorem Screen.Wrote.bounds (wrote : s.Wrote s' 0 4000) (inside : ∀ o ∈ s.written, 0 ≤ o ∧ o < 4000) :
    ∀ o ∈ s'.written, 0 ≤ o ∧ o < 4000 :=
  fun o member => (wrote.inside o member).elim (inside o) id

theorem print_char_sim (cells : s.Cells t) (inside : ∀ o ∈ s.written, 0 ≤ o ∧ o < 4000)
    (shown : List.Forall₂ Display.Shows s.shown ts) (aimed : Aimed s t col row) (visible : attr ≠ 0) :
    Sim (print_char s c col row attr).1.show (type t c attr) (ts ++ [type t c attr]) ∧
      (print_char s c col row attr).2 = 2 * (type t c attr).place := by
  obtain ⟨right,below,place⟩ := aimed
  have start : ∃ s₁ : Screen, (if col ≥ 0 ∧ row ≥ 0 then (s,get_offset col row) else get_cursor_offset s) =
      (s₁,2 * (t.place : Int)) ∧ s₁.video = s.video ∧ s₁.written = s.written ∧ s₁.shown = s.shown := by
    split
    · rename_i given
      rw [if_pos given] at place
      refine ⟨s,Prod.ext rfl ?_,rfl,rfl,rfl⟩
      change 2 * (row * 80 + col) = _
      rw [place]
    · rename_i free
      rw [if_neg free] at place
      refine ⟨{ s with index := 15 },?_,rfl,rfl,rfl⟩
      rw [get_cursor_offset_eq,place]
  obtain ⟨s₁,start,video,written,before⟩ := start
  have cells₁ : s₁.Cells t := by
    intro r low c low'
    unfold Display.cell
    rw [video]
    exact cells r low c low'
  obtain ⟨cells₂,offset,wrote,row_low⟩ := @printed_cells s₁ t c row cells₁ attr below (2 * (t.place : Int)) rfl
  have result : print_char s c col row attr =
      (set_cursor_offset (scrolled (printed s₁ c attr row (2 * (t.place : Int))).1 (printed s₁ c attr row (2 * (t.place : Int))).2.2).1
        (scrolled (printed s₁ c attr row (2 * (t.place : Int))).1 (printed s₁ c attr row (2 * (t.place : Int))).2.2).2,
        (scrolled (printed s₁ c attr row (2 * (t.place : Int))).1 (printed s₁ c attr row (2 * (t.place : Int))).2.2).2) := by
    unfold print_char
    dsimp only
    rw [if_neg visible,start]
    refine if_neg (not_or.mpr ⟨not_le.mpr right,not_le.mpr row_low⟩)
  rw [result]
  refine ⟨set_cursor_sim cells₂ (wrote.bounds (by rw [written]; exact inside)) ?_ offset,offset⟩
  rw [wrote.shown,before]
  exact shown

theorem aimed_offset (s : Screen) {offset : Int} (here : offset = 2 * t.place) :
    Aimed s t (get_offset_col offset) (get_offset_row offset) := by
  have low := t.place_low
  have row : get_offset_row offset = offset / 160 := Int.tdiv_eq_ediv_of_nonneg (by omega)
  have col : get_offset_col offset = (offset - offset / 160 * 160) / 2 := by
    unfold get_offset_col
    rw [row]
    change (offset - offset / 160 * 2 * 80).tdiv 2 = _
    rw [Int.mul_assoc,Int.tdiv_eq_ediv_of_nonneg (by omega)]
    rfl
  unfold Aimed
  rw [row,col,if_pos (by omega)]
  omega

theorem messageEvents_cons (letter : c ≠ 0) (message : List Byte) :
    messageEvents (c :: message) = .char c redOnBlack :: messageEvents message := by
  unfold messageEvents
  rw [@List.takeWhile_cons_of_pos _ (· ≠ 0) c message (decide_eq_true letter)]
  rfl

theorem kprintLoop_sim (message : List Byte) (sim : Sim s t ts) (aimed : Aimed s t col row) :
    Sim (kprintLoop s col row message) ((messageEvents message).foldl after t)
      (ts ++ states after t (messageEvents message)) := by
  induction message generalizing s t ts col row with
  | nil => exact Follows.refl s t ts sim
  | cons c message ih =>
    unfold kprintLoop
    rcases eq_or_ne c 0 with rfl | letter
    · exact Follows.refl s t ts sim
    · obtain ⟨next,offset⟩ := @print_char_sim s t ts c redOnBlack col row sim.shows.cells sim.inside sim.shown aimed (by decide)
      have rest := ih next (aimed_offset _ offset)
      rw [if_neg letter,messageEvents_cons letter,List.foldl_cons,states,List.append_cons]
      exact rest

theorem kprint_follows (s : Screen) (message : List Byte) : Follows s (kprint s message) (messageEvents message) := by
  intro t ts sim
  unfold kprint kprint_at
  rw [if_neg (by decide),get_cursor_offset_eq]
  have moved : Sim { s with index := 15 } t ts := ⟨⟨sim.shows.cells,sim.shows.cursor⟩,sim.inside,sim.shown⟩
  exact kprintLoop_sim message moved (aimed_offset _ (by rw [sim.shows.cursor]))

theorem kputchar_follows (s : Screen) (c : Byte) : Follows s (kputchar s c) [.char c whiteOnBlack] := by
  intro t ts sim
  have aimed : Aimed s t (-1) (-1) := ⟨by decide,by decide,by rw [if_neg (by decide),sim.shows.cursor]⟩
  exact (print_char_sim sim.shows.cells sim.inside sim.shown aimed (by decide)).1

theorem screenewrite_follows (s : Screen) (buf : List Byte) :
    Follows s (screenewrite s buf) (buf.map (.char · whiteOnBlack)) := by
  unfold screenewrite
  induction buf generalizing s with
  | nil => exact .refl s
  | cons c buf ih => exact (kputchar_follows s c).trans (ih (kputchar s c))

/-- One cell back; before the first the offset is negative and the cursor is used. -/
theorem kprint_backspace_follows (s : Screen) : Follows s (kprint_backspace s) [.back] := by
  intro t ts sim
  have cursor := sim.shows.cursor
  have column := t.col_low
  unfold Terminal.place at cursor
  have aimed : Aimed { s with index := 15 } t.retreat (get_offset_col (2 * (s.cursor : Int) - 2))
      (get_offset_row (2 * (s.cursor : Int) - 2)) := by
    by_cases first : s.cursor = 0
    · have home : t.retreat = t := by
        unfold Terminal.retreat
        rw [if_neg (by omega),if_neg (by omega)]
      rw [first,home]
      refine ⟨by decide,by decide,?_⟩
      rw [if_neg (by decide)]
      exact congrArg Nat.cast (sim.shows.cursor)
    · refine aimed_offset _ ?_
      unfold Terminal.retreat
      split
      · change 2 * (s.cursor : Int) - 2 = 2 * ((t.row * 80 + (t.col - 1) : Nat) : Int)
        omega
      split
      · change 2 * (s.cursor : Int) - 2 = 2 * (((t.row - 1) * 80 + (80 - 1) : Nat) : Int)
        omega
      · omega
  have same : t.retreat.cell = t.cell := by
    unfold Terminal.retreat
    split
    · rfl
    split
    · rfl
    · rfl
  have cells : ({ s with index := 15 } : Screen).Cells t.retreat := by
    intro r low c low'
    rw [same]
    exact sim.shows.cells r low c low'
  unfold kprint_backspace
  rw [get_cursor_offset_eq]
  exact (print_char_sim cells sim.inside sim.shown aimed (by decide)).1

theorem clear_screen_follows (s : Screen) : Follows s (clear_screen s) [.clear] := by
  intro t ts sim
  obtain ⟨wrote,video⟩ := clearLoop_spec 2000 0 s (le_refl 0) (by omega)
  have size : (maxCols*maxRows).toNat = 2000 := rfl
  have cells : (clearLoop 2000 0 s).Cells (t.clear (32,whiteOnBlack)) := by
    intro r low c low'
    unfold Display.cell
    rw [video,video,if_pos (by omega),if_pos (by omega),if_pos (by omega),if_neg (by omega)]
    rfl
  unfold clear_screen
  rw [size]
  refine set_cursor_sim cells (wrote.bounds sim.inside) ?_ rfl
  rw [wrote.shown]
  exact sim.shown

theorem call_follows (call : Call) (ok : s.call call = some s') : ∃ es, call.events = some es ∧ Follows s s' es := by
  cases call with
  | kprint message =>
    obtain rfl := Option.some.inj ok
    exact ⟨_,rfl,kprint_follows s message⟩
  | kprintf mem fmt args =>
    obtain ⟨o,format,rfl⟩ := Option.map_eq_some_iff.mp ok
    refine ⟨_,Option.map_eq_some_iff.mpr ⟨o,format,rfl⟩,?_⟩
    refine Follows.trans ((kprint_follows s kernelPrefix).trans ?_) (screenewrite_follows _ o.out)
    split
    · exact kprint_follows _ _
    · exact .refl _
  | kprint_backspace =>
    obtain rfl := Option.some.inj ok
    exact ⟨_,rfl,kprint_backspace_follows s⟩
  | clear_screen =>
    obtain rfl := Option.some.inj ok
    exact ⟨_,rfl,clear_screen_follows s⟩
  | write buf =>
    obtain rfl := Option.some.inj ok
    exact ⟨_,rfl,screenewrite_follows s buf⟩

theorem run_follows (calls : List Call) (ran : s.run calls = some s') : ∃ es, events calls = some es ∧ Follows s s' es := by
  induction calls generalizing s with
  | nil =>
    obtain rfl := Option.some.inj ran
    exact ⟨[],rfl,.refl s⟩
  | cons call calls ih =>
    obtain ⟨s₁,first,rest⟩ := Option.bind_eq_some_iff.mp ran
    obtain ⟨es,these,follows⟩ := call_follows call first
    obtain ⟨es',those,follows'⟩ := ih rest
    exact ⟨es ++ es',by rw [events,these,Option.bind_some,those]; rfl,follows.trans follows'⟩

end simulation

/-- Any calls, from any display whose cursor is on the screen. -/
theorem console_shows (d : Display) (low : d.cursor < 2000) (calls : List Call) {s : Screen}
    (ran : (⟨d,[],[]⟩ : Screen).run calls = some s) :
    (∀ o ∈ s.written, 0 ≤ o ∧ o < 2 * maxCols * maxRows) ∧ (∀ d' ∈ s.shown, (d'.cursor : Int) < maxCols * maxRows) ∧
      (s.cursor : Int) < maxCols * maxRows ∧ ∃ es, events calls = some es ∧
        List.Forall₂ Display.Shows s.shown (states after (d.terminal low) es) ∧
        s.Shows (es.foldl after (d.terminal low)) := by
  obtain ⟨es,given,follows⟩ := run_follows calls ran
  obtain ⟨shows',inside,shown⟩ := follows (d.terminal low) []
    ⟨d.shows_terminal low,fun o member => absurd member List.not_mem_nil,.nil⟩
  refine ⟨inside,fun d' member => ?_,?_,es,given,shown,shows'⟩
  · obtain ⟨i,short,here⟩ := List.mem_iff_getElem.mp member
    have display := List.forall₂_iff_get.mp shown |>.2 i short (by rw [← shown.length_eq]; exact short)
    rw [List.get_eq_getElem,here] at display
    rw [display.cursor]
    exact Int.ofNat_lt.mpr (Terminal.place_low _)
  · rw [shows'.cursor]
    exact Int.ofNat_lt.mpr (Terminal.place_low _)

def blankDisplay : Display := ⟨fun _ => 0,0,fun _ => 0⟩

/-- A letter on an empty screen. -/
theorem console_shows_letter : ∃ s, (⟨blankDisplay,[],[]⟩ : Screen).run [.write [65]] = some s ∧
    ∀ o ∈ s.written, 0 ≤ o ∧ o < 2 * maxCols * maxRows :=
  ⟨_,rfl,(console_shows blankDisplay (by decide) [.write [65]] rfl).1⟩

end Lxos.Drivers
