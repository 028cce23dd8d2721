import Lxos.Boot.Start
import Lxos.Library.Writers
import Mathlib.Data.List.GetD
import Mathlib.Tactic.IntervalCases

/-! The segments that `bootmain` loads. Each one writes whole sectors, so it also writes
around its own range, and what it writes there is left to the segments after it. -/
namespace Lxos.Boot
open Lxos.Bytes Lxos.Fs Lxos.Writers

/-- The fields of `struct proghdr` that are used. -/
structure Segment where
  off : Nat
  paddr : Nat
  filesz : Nat
  memsz : Nat
deriving DecidableEq

namespace Segment

/-- The program header at an offset of the image. -/
def header (image : Buffer) (p : Nat) : Segment :=
  ⟨(le32 image (p + 4)).toNat,(le32 image (p + 12)).toNat,(le32 image (p + 16)).toNat,(le32 image (p + 20)).toNat⟩

/-- The bytes in memory. -/
def Range (s : Segment) (a : Nat) : Prop := s.paddr ≤ a ∧ a < s.paddr + s.memsz

/-- What belongs there. -/
def expected (s : Segment) (image : Buffer) (a : Nat) : Byte :=
  if a < s.paddr + s.filesz then image (s.off + (a - s.paddr)) else 0

/-- Where the first sector goes. -/
def low (s : Segment) : Nat := s.paddr - s.off % 512

/-- The end of the last one. -/
def high (s : Segment) : Nat := s.low + sectors s.filesz s.off * 512

/-- What the sectors write. -/
def sectorBytes (image : Buffer) (s : Segment) (a : Nat) : Option Byte :=
  if s.low ≤ a ∧ a < s.high then some (image (s.off / 512 * 512 + (a - s.low))) else none

/-- With the zeros after them. -/
def write (image : Buffer) (s : Segment) (a : Nat) : Option Byte :=
  if s.paddr + s.filesz ≤ a ∧ a < s.paddr + s.memsz then some 0 else s.sectorBytes image a

end Segment

/-- The segments from a program header on. -/
def segmentsFrom (image : Buffer) : Nat → Nat → List Segment
  | _, 0 => []
  | p, n+1 => .header image p :: segmentsFrom image (p + 32) n

def phoff (image : Buffer) : Nat := (le32 image 28).toNat

def phnum (image : Buffer) : Nat := (le16 image 44).toNat

def segments (image : Buffer) : List Segment := segmentsFrom image (phoff image) (phnum image)

/-- Every segment is in memory as it should be. -/
def Intact (image : Buffer) (m : Buffer) : Prop := ∀ s ∈ segments image, ∀ a, s.Range a → m a = s.expected image a

section loading
variable {disk : Nat → Buffer} {m : Buffer} {p n : Nat} {s : Segment} {img : Buffer} {loader : Nat → Prop}

end loading

section images
variable {gap : BitVec 32}

end images

end Lxos.Boot
