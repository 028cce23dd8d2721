import Mathlib.Data.Nat.Basic
import Mathlib.Tactic.Ring

/-! Byte buffers with little-endian words. A buffer is memory seen from a
pointer: total on offsets, so that a partial overwrite needs no bounds proof.
Every store is a `blit`, and each lemma says which bytes it leaves alone. -/
namespace Lxos.Bytes

abbrev Byte := BitVec 8

abbrev Buffer := Nat → Byte

/-- `memmove(b + o, src, n)`. -/
def blit (b : Buffer) (o n : Nat) (src : Buffer) : Buffer :=
  fun i => if o ≤ i ∧ i < o + n then src (i - o) else b i

def zeros : Buffer := fun _ => 0

def le16 (b : Buffer) (o : Nat) : BitVec 16 :=
  BitVec.ofNat 16 ((b o).toNat + 256 * (b (o+1)).toNat)

def le32 (b : Buffer) (o : Nat) : BitVec 32 :=
  BitVec.ofNat 32 ((b o).toNat + 256 * (b (o+1)).toNat + 65536 * (b (o+2)).toNat +
    16777216 * (b (o+3)).toNat)

/-- Byte `i` of a little-endian number. -/
def digit (v i : Nat) : Byte := BitVec.ofNat 8 (v / 256 ^ i)

def put16 (b : Buffer) (o : Nat) (v : BitVec 16) : Buffer := blit b o 2 (digit v.toNat)

def put32 (b : Buffer) (o : Nat) (v : BitVec 32) : Buffer := blit b o 4 (digit v.toNat)

/-- The bytes of an array of words. -/
def words (w : Nat → BitVec 32) : Buffer := fun i => digit (w (i / 4)).toNat (i % 4)

theorem blit_inside {b src : Buffer} {o n i : Nat} (h : i < n) : blit b o n src (o + i) = src i := by
  have inside : o ≤ o + i ∧ o + i < o + n := by omega
  simp [blit,inside]

theorem blit_outside {b src : Buffer} {o n i : Nat} (h : i < o ∨ o + n ≤ i) :
    blit b o n src i = b i := by
  have outside : ¬(o ≤ i ∧ i < o + n) := by omega
  simp only [blit,outside,if_false]

@[simp] theorem blit_zero (b src : Buffer) (o : Nat) : blit b o 0 src = b := by
  funext i
  exact blit_outside (by omega)

/-- Two adjacent copies are one copy. -/
theorem blit_append (b src : Buffer) (o m n : Nat) :
    blit (blit b o m src) (o + m) n (fun i => src (m + i)) = blit b o (m + n) src := by
  funext i
  by_cases first : o ≤ i ∧ i < o + m
  · have inside : o ≤ i ∧ i < o + (m + n) := by omega
    rw [blit_outside (by omega)]
    simp only [blit,first,inside,and_self,if_true]
  · by_cases second : o + m ≤ i ∧ i < o + m + n
    · have inside : o ≤ i ∧ i < o + (m + n) := by omega
      have index : m + (i - (o + m)) = i - o := by omega
      simp only [blit,second,inside,and_self,if_true,index]
    · rw [blit_outside (by omega),blit_outside (by omega),blit_outside (by omega)]

theorem le16_congr {a b : Buffer} {o p : Nat} (same : ∀ i < 2, a (o + i) = b (p + i)) :
    le16 a o = le16 b p := by
  have h0 := same 0 (by omega)
  have h1 := same 1 (by omega)
  simp only [Nat.add_zero] at h0
  simp only [le16,h0,h1]

theorem le32_congr {a b : Buffer} {o p : Nat} (same : ∀ i < 4, a (o + i) = b (p + i)) :
    le32 a o = le32 b p := by
  have h0 := same 0 (by omega)
  have h1 := same 1 (by omega)
  have h2 := same 2 (by omega)
  have h3 := same 3 (by omega)
  simp only [Nat.add_zero] at h0
  simp only [le32,h0,h1,h2,h3]

@[simp] theorem le32_zeros (o : Nat) : le32 zeros o = 0 := rfl

@[simp] theorem le16_zeros (o : Nat) : le16 zeros o = 0 := rfl

theorem le16_digits (v : BitVec 16) : le16 (digit v.toNat) 0 = v := by
  apply BitVec.eq_of_toNat_eq
  simp only [le16,digit,BitVec.toNat_ofNat,Nat.zero_add]
  omega

theorem le32_digits (v : BitVec 32) : le32 (digit v.toNat) 0 = v := by
  apply BitVec.eq_of_toNat_eq
  simp only [le32,digit,BitVec.toNat_ofNat,Nat.zero_add]
  omega

/-- The first byte of a zero word. -/
theorem le32_low {b : Buffer} {o : Nat} (zero : le32 b o = 0) : b o = 0 := by
  have value := congrArg BitVec.toNat zero
  simp only [le32,BitVec.toNat_ofNat] at value
  apply BitVec.eq_of_toNat_eq
  change _ = 0 % 2^32 at value
  change (b o).toNat = 0
  omega

@[simp] theorem le16_put16 (b : Buffer) (o : Nat) (v : BitVec 16) : le16 (put16 b o v) o = v := by
  rw [← le16_digits v]
  exact le16_congr (fun i bound => by rw [put16,blit_inside bound,Nat.zero_add,le16_digits])

@[simp] theorem le32_put32 (b : Buffer) (o : Nat) (v : BitVec 32) : le32 (put32 b o v) o = v := by
  rw [← le32_digits v]
  exact le32_congr (fun i bound => by rw [put32,blit_inside bound,Nat.zero_add,le32_digits])

theorem le16_blit_outside {b src : Buffer} {o n p : Nat} (h : p + 2 ≤ o ∨ o + n ≤ p) :
    le16 (blit b o n src) p = le16 b p :=
  le16_congr (fun _ _ => blit_outside (by omega))

theorem le32_blit_outside {b src : Buffer} {o n p : Nat} (h : p + 4 ≤ o ∨ o + n ≤ p) :
    le32 (blit b o n src) p = le32 b p :=
  le32_congr (fun _ _ => blit_outside (by omega))

theorem le32_words (w : Nat → BitVec 32) (j : Nat) : le32 (words w) (4 * j) = w j := by
  rw [← le32_digits (w j)]
  refine le32_congr (fun i bound => ?_)
  have quotient : (4 * j + i) / 4 = j := by omega
  have remainder : (4 * j + i) % 4 = i := by omega
  simp only [words,quotient,remainder,Nat.zero_add]

/-- A copied array is read back word by word. -/
theorem le32_blit_words {b : Buffer} {o n j : Nat} (w : Nat → BitVec 32) (h : 4 * j + 4 ≤ n) :
    le32 (blit b o n (words w)) (o + 4 * j) = w j := by
  rw [← le32_words w j]
  exact le32_congr (fun i bound => by rw [Nat.add_assoc,blit_inside (by omega)])

end Lxos.Bytes
