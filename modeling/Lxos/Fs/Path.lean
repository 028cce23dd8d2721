import Lxos.Fs.Lookup
import Lxos.Library.Words

/-! Paths. `skipelem` cuts a path into its components; it and `namex` are given once more
on pointers, where a path lies in memory up to its zero and what follows may not be there. -/
namespace Lxos.Fs
open Lxos.Bytes Lxos.Words

/-- The parts of a path between its slashes. -/
def components (path : List Byte) : List (List Byte) := words (· == slash) path

/-- `skipelem` took `elem` from the path. -/
structure Element (path rest elem : List Byte) (name name' : Buffer) : Prop where
  components : components path = elem :: components rest
  title : cname name' = elem.take dirsiz
  kept : ∀ i ≥ dirsiz, name' i = name i
  string : 0 ∉ rest
  shorter : rest.length < path.length
  last : rest = [] ↔ Fs.components rest = []

section skipelem
variable {path rest elem : List Byte} {name name' : Buffer}

theorem skipelem_none : skipelem path name = none ↔ components path = [] := by
  unfold components
  rw [words_empty]
  unfold skipelem
  cases path.dropWhile (· == slash) with
  | nil => exact iff_of_true rfl rfl
  | cons b s => exact iff_of_false (Option.some_ne_none _) (List.cons_ne_nil _ _)

theorem skipelem_some (string : 0 ∉ path) (ok : skipelem path name = some (rest,name')) :
    ∃ elem, Element path rest elem name name' := by
  have sub := (List.dropWhile_sublist (· == slash) : (path.dropWhile (· == slash)).Sublist path)
  unfold skipelem at ok
  cases start : path.dropWhile (· == slash) with
  | nil =>
    rw [start] at ok
    cases ok
  | cons b s =>
    rw [start] at ok sub
    obtain ⟨rfl,rfl⟩ := Prod.mk.inj (Option.some.inj ok)
    have first := dropWhile_first start
    have plain (x : Byte) (inside : x ∈ (b :: s).takeWhile (· != slash)) : x ≠ 0 := by
      rintro rfl
      exact string (sub.mem (List.takeWhile_subset _ inside))
    have below : ((b :: s).dropWhile (· != slash)).length < (b :: s).length := by
      rw [List.dropWhile_cons_of_pos (by simpa using first)]
      exact Nat.lt_succ_of_le (List.dropWhile_sublist _).length_le
    have tail : (((b :: s).dropWhile (· != slash)).dropWhile (· == slash)).Sublist path :=
      ((List.dropWhile_sublist _).trans (List.dropWhile_sublist _)).trans sub
    refine ⟨(b :: s).takeWhile (· != slash),?_,?_,fun i high => ?_,fun h => string (tail.mem h),?_,?_⟩
    · have cut := @words_cons Byte (· == slash) b s first
      rw [← start,words_dropWhile,start] at cut
      exact cut
    · generalize (b :: s).takeWhile (· != slash) = elem at plain
      refine cstring_eq (fun h => plain 0 h rfl) 14 0 (fun i low inside => ?_) (fun short => ?_)
      all_goals rw [Nat.zero_add]
      · split
        · exact @blit_inside name (bytes elem) 0 14 i low ▸ by rw [Nat.zero_add]
        · rw [blit_outside (Or.inl inside)]
          exact @blit_inside name (bytes elem) 0 elem.length i inside ▸ by rw [Nat.zero_add]
      · rw [if_neg (by change ¬14 ≤ _; omega)]
        exact @blit_inside _ zeros elem.length 1 0 (Nat.succ_pos 0)
    · have high : 14 ≤ i := high
      split
      · exact blit_outside (by change i < 0 ∨ 0 + 14 ≤ i; omega)
      · rename_i short
        have short : ((b :: s).takeWhile (· != slash)).length < 14 := Nat.lt_of_not_le short
        rw [blit_outside (by omega),blit_outside (by omega)]
    · exact Nat.lt_of_le_of_lt (List.dropWhile_sublist _).length_le (Nat.lt_of_lt_of_le below sub.length_le)
    · unfold components
      rw [words_empty,List.dropWhile_idempotent]

end skipelem

namespace Pointer

/-- `*path`; a pointer is the list of the bytes that can be read from it on. -/
def fetch : List Byte → Except Fault Byte
  | [] => .error .pageFault
  | b :: _ => .ok b

/-- `while(p(*path)) path++`. -/
def skip (p : Byte → Bool) : List Byte → Except Fault (List Byte)
  | [] => .error .pageFault
  | b :: path => if p b then skip p path else .ok (b :: path)

def skipelem (path : List Byte) (name : Buffer) : Except Fault (Option (List Byte × Buffer)) := do
  let s ← skip (· == slash) path
  if (← fetch s) = 0 then return none
  let path ← skip (fun b => b != slash && b != 0) s
  let len := s.length - path.length
  let name :=
    if len ≥ dirsiz then blit name 0 dirsiz (bytes s)
    else blit (blit name 0 len (bytes s)) len 1 zeros
  let path ← skip (· == slash) path
  return some (path,name)

/-- `nameiparent && *path == '\0'`. -/
def last (parent : Bool) (path : List Byte) : Except Fault Bool :=
  if parent then (fetch path).map (· == 0) else .ok false

/-- The loop of `namex`. -/
def namexLoop (parent : Bool) :
    Nat → FsState → Slot → List Byte → Buffer → Except Fault (Option Slot × Buffer × FsState)
  | 0, _, _, _, _ => .error .hang
  | fuel+1, st, ip, path, name =>
    match skipelem path name with
    | .error e => .error e
    | .ok none => if parent then .ok (none,name,iput st ip) else .ok (some ip,name,st)
    | .ok (some (path,name)) =>
      let st := ilock st ip
      if (st.icache ip).type ≠ tDir then .ok (none,name,iunlockput st ip)
      else
        match last parent path with
        | .error e => .error e
        | .ok true => .ok (some ip,name,iunlock st ip)
        | .ok false =>
          match dirlookup st ip name with
          | .error e => .error e
          | .ok (none,st) => .ok (none,name,iunlockput st ip)
          | .ok (some (next,_),st) => namexLoop parent fuel (iunlockput st ip) next path name

def namex (st : FsState) (cwd : Slot) (path : List Byte) (parent : Bool) :
    Except Fault (Option Slot × Buffer × FsState) :=
  match fetch path with
  | .error e => .error e
  | .ok c =>
    match (if c = slash then iget st rootdev rootino else .ok (cwd,idup st cwd)) with
    | .error e => .error e
    | .ok (ip,st) => namexLoop parent (path.length+1) st ip path st.stack

end Pointer

section pointer
variable {path rest : List Byte} {name : Buffer} {parent : Bool} {st : FsState} {ip : Slot}

theorem bytes_append {l l' : List Byte} {i : Nat} (inside : i < l.length) : bytes (l ++ l') i = bytes l i := by
  unfold bytes
  rw [List.getD_append _ _ _ _ inside]

end pointer

end Lxos.Fs
