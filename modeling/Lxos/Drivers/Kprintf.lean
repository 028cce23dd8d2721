import Lxos.Drivers.Kprintint

/-! `kprintf` of `screen.c`. The format lies in memory and is read byte by byte; each
place read is recorded. Arguments are the words on the stack, as many as are asked for. -/
namespace Lxos.Drivers
open Lxos.Bytes Lxos.Numerals Lxos.Libc

abbrev percent : Byte := 37

/-- What is printed, how many arguments were taken, and where the format was read. -/
structure Output where
  out : List Byte
  used : Nat
  reads : List Nat

def Output.after (o : Output) (text : List Byte) (reads : List Nat) : Output :=
  { o with out := text ++ o.out,reads := reads ++ o.reads }

/-- `while(*s) putchar(*s++)`. -/
def stringLoop (mem : Nat → Byte) : Nat → Nat → Option (List Byte)
  | 0, _ => none
  | fuel+1, s => if mem s = 0 then some [] else (stringLoop mem fuel (s+1)).map (mem s :: ·)

def stringAt (mem : Nat → Byte) (s : BitVec 32) : Option (List Byte) := stringLoop mem 4294967296 s.toNat

/-- The switch of `kprintf` on the character after `%`: the text, and the arguments taken. -/
def kernelDirective (mem : Nat → Byte) (arg : BitVec 32) (d : Byte) : Option (List Byte × Nat) :=
  if d = 115 then (stringAt mem arg).map (·,1)
  else if d = 99 then some ([arg.setWidth 8],1)
  else if d = 100 then some (kprintint arg 10 true,1)
  else if d = 112 then some (kprintint arg 10 false,1)
  else if d = 120 then some (kprintint arg 16 false,1)
  else some ([],0)

def kprintfLoop (mem : Nat → Byte) (args : Nat → BitVec 32) : Nat → Nat → Nat → Option Output
  | 0, _, _ => none
  | fuel+1, fmt, used =>
    if mem fmt = 0 then some ⟨[],used,[fmt]⟩
    else if mem fmt = percent then
      (kernelDirective mem (args used) (mem (fmt+1))).bind fun r =>
        (kprintfLoop mem args fuel (fmt+2) (used + r.2)).map fun o => o.after r.1 [fmt,fmt+1]
    else (kprintfLoop mem args fuel (fmt+1) used).map fun o => o.after [mem fmt] [fmt]

/-- `kern:`. -/
def kernelPrefix : List Byte := [107,101,114,110,58]

/-- `error for kprintf`. -/
def kernelError : List Byte := [101,114,114,111,114,32,102,111,114,32,107,112,114,105,110,116,102]

def kprintf (mem : Nat → Byte) (fmt : Nat) (args : Nat → BitVec 32) : Option Output :=
  (kprintfLoop mem args 4294967296 fmt 0).map fun o =>
    o.after (kernelPrefix ++ if fmt = 0 then kernelError else []) []

/-- A string in memory. -/
structure Cstring (mem : Nat → Byte) (p : Nat) (cs : List Byte) : Prop where
  address : p ≠ 0
  byte : ∀ i ≤ cs.length, mem (p + i) = cs.getD i 0
  plain : 0 ∉ cs
  inside : p + cs.length < 4294967296

/-- The parts of a format; the last may be a lone `%`. -/
inductive Piece
  | literal (c : Byte)
  | directive (d : Byte)
  | lone
deriving DecidableEq

def pieces : List Byte → List Piece
  | [] => []
  | [c] => [if c = percent then .lone else .literal c]
  | c :: d :: cs => if c = percent then .directive d :: pieces cs else .literal c :: pieces (d :: cs)

/-- The directives that take an argument. -/
def takes (d : Byte) : Nat := if d = 115 ∨ d = 99 ∨ d = 100 ∨ d = 112 ∨ d = 120 then 1 else 0

def Piece.takes : Piece → Nat
  | .directive d => Drivers.takes d
  | _ => 0

/-- Each `%s` has the address of a string for its argument; the first piece has argument `k`. -/
def Matching (mem : Nat → Byte) (args : Nat → BitVec 32) : Nat → List Piece → Prop
  | _, [] => True
  | k, p :: ps => (p = .directive 115 → ∃ cs, Cstring mem (args k).toNat cs) ∧ Matching mem args (k + p.takes) ps

/-- What the kernel makes of a directive and its argument. -/
def kernelExpansion (mem : Nat → Byte) (arg : BitVec 32) (d : Byte) : List Byte :=
  if d = 115 then (stringAt mem arg).getD []
  else if d = 99 then [arg.setWidth 8]
  else if d = 100 then signed minus kernelDigits 10 arg.toInt
  else if d = 112 then signed minus kernelDigits 10 arg.toNat
  else if d = 120 then signed minus kernelDigits 16 arg.toNat
  else []

/-- Literal characters and expansions, in order. -/
def expanded (expansion : BitVec 32 → Byte → List Byte) (args : Nat → BitVec 32) : Nat → List Piece → List Byte
  | _, [] => []
  | k, .literal c :: ps => c :: expanded expansion args k ps
  | k, .directive d :: ps => expansion (args k) d ++ expanded expansion args (k + takes d) ps
  | k, .lone :: ps => expanded expansion args k ps

/-- The arguments that a format takes. -/
def taken (ps : List Piece) : Nat := (ps.map Piece.takes).sum

section strings
variable {mem : Nat → Byte} {args : Nat → BitVec 32} {p k fmt used fuel : Nat} {c d : Byte} {cs : List Byte}

theorem Cstring.first (string : Cstring mem p (c :: cs)) : mem p = c ∧ c ≠ 0 :=
  ⟨string.byte 0 (Nat.zero_le _),fun zero => string.plain (zero ▸ List.mem_cons_self)⟩

theorem Cstring.rest (string : Cstring mem p (c :: cs)) : Cstring mem (p+1) cs := by
  obtain ⟨address,byte,plain,inside⟩ := string
  rw [List.length_cons] at inside
  refine ⟨Nat.succ_ne_zero p,fun i low => ?_,fun zero => plain (List.mem_cons_of_mem _ zero),by omega⟩
  have next := byte (i+1) (Nat.succ_le_succ low)
  rw [show p + (i+1) = p + 1 + i by omega] at next
  exact next

theorem Cstring.stop (string : Cstring mem p []) : mem p = 0 := string.byte 0 (le_refl 0)

theorem stringLoop_spec (string : Cstring mem p cs) (enough : cs.length < fuel) : stringLoop mem fuel p = some cs := by
  induction cs generalizing p fuel with
  | nil =>
    obtain ⟨fuel,rfl⟩ : ∃ n, fuel = n + 1 := ⟨fuel - 1,by omega⟩
    exact if_pos string.stop
  | cons c cs ih =>
    rw [List.length_cons] at enough
    obtain ⟨fuel,rfl⟩ : ∃ n, fuel = n + 1 := ⟨fuel - 1,by omega⟩
    obtain ⟨here,letter⟩ := string.first
    unfold stringLoop
    rw [if_neg (by rw [here]; exact letter),ih string.rest (by omega),here]
    rfl

theorem Cstring.text {s : BitVec 32} (string : Cstring mem s.toNat cs) : stringAt mem s = some cs := by
  have inside := string.inside
  exact stringLoop_spec string (by omega)

theorem kernelDirective_eq {arg : BitVec 32} (text : d = 115 → ∃ cs, Cstring mem arg.toNat cs) :
    kernelDirective mem arg d = some (kernelExpansion mem arg d,takes d) := by
  unfold kernelDirective kernelExpansion takes
  split
  · rename_i s
    obtain ⟨cs,string⟩ := text s
    rw [string.text,s]
    rfl
  split
  · rename_i c
    rw [c]
    rfl
  split
  · rename_i n
    rw [n,kprintint_eq (by decide)]
    rfl
  split
  · rename_i p
    rw [p,kprintint_eq (by decide)]
    rfl
  split
  · rename_i x
    rw [x,kprintint_eq (by decide)]
    rfl
  · rename_i s c n p x
    have other : ¬(d = 115 ∨ d = 99 ∨ d = 100 ∨ d = 112 ∨ d = 120) := by
      simp only [not_or]
      exact ⟨s,c,n,p,x⟩
    rw [if_neg other]

theorem pieces_directive (d : Byte) (cs : List Byte) : pieces (percent :: d :: cs) = .directive d :: pieces cs := if_pos rfl

theorem pieces_literal (plain : c ≠ percent) (d : Byte) (cs : List Byte) :
    pieces (c :: d :: cs) = .literal c :: pieces (d :: cs) := if_neg plain

/-- The output is that of the parts `ps`, the first of which has argument `k`. -/
structure Output.Renders (expansion : BitVec 32 → Byte → List Byte) (args : Nat → BitVec 32) (k : Nat) (ps : List Piece)
    (o : Output) : Prop where
  out : o.out = expanded expansion args k ps
  used : o.used = k + taken ps

theorem Output.Renders.literal {expansion : BitVec 32 → Byte → List Byte} {ps : List Piece} {o : Output}
    (rest : o.Renders expansion args k ps) (c : Byte) (reads : List Nat) :
    (o.after [c] reads).Renders expansion args k (.literal c :: ps) := by
  refine ⟨congrArg (c :: ·) rest.out,?_⟩
  change o.used = k + (0 + taken ps)
  rw [rest.used,Nat.zero_add]

theorem Output.Renders.directive {expansion : BitVec 32 → Byte → List Byte} {ps : List Piece} {o : Output}
    (rest : o.Renders expansion args (k + takes d) ps) (reads : List Nat) :
    (o.after (expansion (args k) d) reads).Renders expansion args k (.directive d :: ps) := by
  refine ⟨congrArg (expansion (args k) d ++ ·) rest.out,?_⟩
  change o.used = k + (takes d + taken ps)
  rw [rest.used,Nat.add_assoc]

/-- A format that ends in no lone `%` is read up to its zero. -/
theorem kprintfLoop_spec (string : Cstring mem fmt cs) (whole : .lone ∉ pieces cs)
    (matching : Matching mem args used (pieces cs)) (enough : cs.length < fuel) :
    ∃ o, kprintfLoop mem args fuel fmt used = some o ∧ o.Renders (kernelExpansion mem) args used (pieces cs) ∧
      ∀ a ∈ o.reads, fmt ≤ a ∧ a ≤ fmt + cs.length := by
  induction cs using pieces.induct generalizing fmt used fuel with
  | case1 =>
    obtain ⟨fuel,rfl⟩ : ∃ n, fuel = n + 1 := ⟨fuel - 1,by omega⟩
    refine ⟨⟨[],used,[fmt]⟩,if_pos string.stop,⟨rfl,rfl⟩,fun a inside => ?_⟩
    rw [List.mem_singleton.mp inside]
    exact ⟨le_refl _,le_refl _⟩
  | case2 c =>
    obtain ⟨here,letter⟩ := string.first
    have plain : c ≠ percent := fun lone => whole (by rw [pieces,if_pos lone]; exact List.mem_singleton_self _)
    rw [List.length_singleton] at enough
    obtain ⟨fuel,rfl⟩ : ∃ n, fuel = n + 2 := ⟨fuel - 2,by omega⟩
    have stop := string.rest.stop
    refine ⟨⟨[c],used,[fmt,fmt+1]⟩,?_,?_,fun a inside => ?_⟩
    · unfold kprintfLoop
      rw [here,if_neg letter,if_neg plain]
      unfold kprintfLoop
      rw [if_pos stop]
      rfl
    · rw [pieces,if_neg plain]
      exact ⟨rfl,rfl⟩
    · rw [List.length_singleton]
      simp only [List.mem_cons,List.not_mem_nil,or_false] at inside
      omega
  | case3 d cs ih =>
    rw [List.length_cons,List.length_cons] at enough
    obtain ⟨fuel,rfl⟩ : ∃ n, fuel = n + 1 := ⟨fuel - 1,by omega⟩
    obtain ⟨here,letter⟩ := string.first
    obtain ⟨next,_⟩ := string.rest.first
    rw [pieces_directive] at whole matching ⊢
    obtain ⟨text,matching⟩ := matching
    have short : cs.length < fuel := by omega
    obtain ⟨o,rest,renders,reads⟩ := ih string.rest.rest (fun lone => whole (List.mem_cons_of_mem _ lone)) matching short
    refine ⟨o.after (kernelExpansion mem (args used) d) [fmt,fmt+1],?_,renders.directive _,fun a inside => ?_⟩
    · unfold kprintfLoop
      rw [here,if_neg letter,if_pos rfl,next,kernelDirective_eq fun s => text (by rw [s])]
      change (kprintfLoop mem args fuel (fmt+1+1) (used + takes d)).map _ = _
      rw [show used + takes d = used + (Piece.directive d).takes from rfl,rest]
      rfl
    · rw [List.length_cons,List.length_cons]
      rcases List.mem_append.mp inside with now | later
      · simp only [List.mem_cons,List.not_mem_nil,or_false] at now
        omega
      · have := reads a later
        omega
  | case4 c d cs plain ih =>
    rw [List.length_cons] at enough
    obtain ⟨fuel,rfl⟩ : ∃ n, fuel = n + 1 := ⟨fuel - 1,by omega⟩
    obtain ⟨here,letter⟩ := string.first
    rw [pieces_literal plain] at whole matching ⊢
    have short : (d :: cs).length < fuel := by omega
    obtain ⟨o,rest,renders,reads⟩ := ih string.rest (fun lone => whole (List.mem_cons_of_mem _ lone)) matching.2 short
    refine ⟨o.after [c] [fmt],?_,renders.literal c _,fun a inside => ?_⟩
    · unfold kprintfLoop
      rw [here,if_neg letter,if_neg plain]
      change (kprintfLoop mem args fuel (fmt+1) (used + 0)).map _ = _
      rw [show used + 0 = used + (Piece.literal c).takes from rfl,rest]
      rfl
    · rw [List.length_cons]
      rcases List.mem_append.mp inside with now | later
      · rw [List.mem_singleton.mp now]
        omega
      · have := reads a later
        omega

/-- After a lone `%` the byte that follows the zero is read. -/
theorem kprintfLoop_lone (string : Cstring mem fmt cs) (lone : .lone ∈ pieces cs) {o : Output}
    (ok : kprintfLoop mem args fuel fmt used = some o) : fmt + cs.length + 1 ∈ o.reads := by
  induction cs using pieces.induct generalizing fmt used fuel o with
  | case1 => exact absurd lone List.not_mem_nil
  | case2 c =>
    obtain ⟨here,letter⟩ := string.first
    have sign : c = percent := by
      by_contra plain
      rw [pieces,if_neg plain] at lone
      cases List.mem_singleton.mp lone
    cases fuel with
    | zero => cases ok
    | succ fuel =>
      unfold kprintfLoop at ok
      rw [here,if_neg letter,if_pos sign,string.rest.stop] at ok
      change (kprintfLoop mem args fuel (fmt+2) (used+0)).map _ = some o at ok
      obtain ⟨rest,later,rfl⟩ := Option.map_eq_some_iff.mp ok
      have first : fmt + 2 ∈ rest.reads := by
        cases fuel with
        | zero => cases later
        | succ fuel =>
          unfold kprintfLoop at later
          split at later
          · cases later
            exact List.mem_singleton_self _
          split at later
          · obtain ⟨r,_,later⟩ := Option.bind_eq_some_iff.mp later
            obtain ⟨last,_,rfl⟩ := Option.map_eq_some_iff.mp later
            exact List.mem_append_left _ List.mem_cons_self
          · obtain ⟨last,_,rfl⟩ := Option.map_eq_some_iff.mp later
            exact List.mem_append_left _ List.mem_cons_self
      exact List.mem_append_right _ first
  | case3 d cs ih =>
    obtain ⟨here,letter⟩ := string.first
    rw [pieces_directive] at lone
    have later := List.mem_of_ne_of_mem (fun same => by cases same) lone
    cases fuel with
    | zero => cases ok
    | succ fuel =>
      unfold kprintfLoop at ok
      rw [here,if_neg letter,if_pos rfl] at ok
      obtain ⟨r,_,ok⟩ := Option.bind_eq_some_iff.mp ok
      obtain ⟨rest,next,rfl⟩ := Option.map_eq_some_iff.mp ok
      have beyond := ih string.rest.rest later next
      refine List.mem_append_right _ ?_
      rw [List.length_cons,List.length_cons,show fmt + (cs.length + 1 + 1) + 1 = fmt + 1 + 1 + cs.length + 1 by omega]
      exact beyond
  | case4 c d cs plain ih =>
    obtain ⟨here,letter⟩ := string.first
    rw [pieces_literal plain] at lone
    have later := List.mem_of_ne_of_mem (fun same => by cases same) lone
    cases fuel with
    | zero => cases ok
    | succ fuel =>
      unfold kprintfLoop at ok
      rw [here,if_neg letter,if_neg plain] at ok
      obtain ⟨rest,next,rfl⟩ := Option.map_eq_some_iff.mp ok
      have beyond := ih string.rest later next
      refine List.mem_append_right _ ?_
      rw [List.length_cons,show fmt + ((d :: cs).length + 1) + 1 = fmt + 1 + (d :: cs).length + 1 by omega]
      exact beyond

/-- `kprintf` ends, has read the format up to its zero only, and has printed the prefix,
the characters and the expansions. -/
def Formatted (mem : Nat → Byte) (fmt : Nat) (args : Nat → BitVec 32) (cs : List Byte) : Prop :=
  ∃ o, kprintf mem fmt args = some o ∧ (∀ a ∈ o.reads, fmt ≤ a ∧ a ≤ fmt + cs.length) ∧
    o.used = taken (pieces cs) ∧ o.out = kernelPrefix ++ expanded (kernelExpansion mem) args 0 (pieces cs)

theorem kprintf_formatted (string : Cstring mem fmt cs) (matching : Matching mem args 0 (pieces cs)) :
    Formatted mem fmt args cs ↔ .lone ∉ pieces cs := by
  constructor
  · rintro ⟨o,ok,reads,_⟩ lone
    obtain ⟨rest,run,rfl⟩ := Option.map_eq_some_iff.mp ok
    have beyond := reads _ (List.mem_append_right _ (kprintfLoop_lone string lone run))
    omega
  · intro whole
    have inside := string.inside
    obtain ⟨o,run,renders,reads⟩ := kprintfLoop_spec string whole matching (by omega : cs.length < 4294967296)
    refine ⟨o.after (kernelPrefix ++ []) [],?_,reads,renders.used.trans (Nat.zero_add _),?_⟩
    · unfold kprintf
      rw [run,if_neg string.address]
      rfl
    · change (kernelPrefix ++ []) ++ o.out = _
      rw [List.append_nil,renders.out]

/-- A memory that holds a string at address one. -/
def holding (cs : List Byte) (a : Nat) : Byte := if a = 0 then 0 else cs.getD (a - 1) 0

theorem Cstring.holding (plain : 0 ∉ cs) (short : 1 + cs.length < 4294967296) : Cstring (holding cs) 1 cs := by
  refine ⟨Nat.one_ne_zero,fun i low => ?_,plain,short⟩
  unfold Drivers.holding
  rw [if_neg (by omega),Nat.add_sub_cancel_left]

/-- A per cent sign alone. -/
theorem kprintf_lone : ¬∀ mem fmt args cs, Cstring mem fmt cs → Matching mem args 0 (pieces cs) → Formatted mem fmt args cs := by
  intro all
  have string : Cstring (holding [percent]) 1 [percent] := .holding (by decide) (by decide)
  have matching : Matching (holding [percent]) (fun _ => 0) 0 (pieces [percent]) := ⟨fun same => (by cases same),trivial⟩
  exact (kprintf_formatted string matching).mp (all _ _ _ _ string matching) (List.mem_singleton_self _)

/-- The letter `a`. -/
theorem kprintf_formatted_letter : Formatted (holding [97]) 1 (fun _ => 0) [97] := by
  have string : Cstring (holding [97]) 1 [97] := .holding (by decide) (by decide)
  exact (kprintf_formatted string ⟨fun same => (by cases same),trivial⟩).mpr (by decide)

end strings

end Lxos.Drivers
