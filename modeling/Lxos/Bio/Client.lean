import Lxos.Bio.Buffer
import Lxos.Library.Handles
import Mathlib.Data.Finset.Card

/-! Users of the buffer cache. A handle is what one `bread` returned and is given
back by one `brelse`; the plain disk beside the cache is what the `bwrite`s stored. -/
namespace Lxos.Bio
open Lxos.Bytes Lxos.Ring Lxos.Handles

/-- A buffer, held for a block. -/
structure Handle where
  buf : Node
  dev : Nat
  blockno : Nat
deriving DecidableEq

def Handle.block (h : Handle) : Nat × Nat := (h.dev,h.blockno)

structure Client where
  cache : Bcache
  held : List Handle
  /-- Modified since the last `bwrite`. -/
  unwritten : Node → Bool
  stored : Nat → Nat → Fs.Block

inductive Op
  | bread (dev blockno : Nat)
  | brelse (h : Handle)
  | modify (h : Handle) (data : Fs.Block)
  | bwrite (h : Handle)

namespace Client

def boot (disk : Nat → Nat → Fs.Block) : Client := ⟨binit (Bcache.boot disk),[],fun _ => false,disk⟩

def step (m : Client) : Op → Except Fs.Fault Client
  | .bread dev blockno =>
    match bread m.cache dev blockno with
    | .error e => .error e
    | .ok (b,cache) => .ok { m with cache := cache,held := ⟨b,dev,blockno⟩ :: m.held }
  | .brelse h => .ok { m with cache := brelse m.cache h.buf,held := m.held.erase h }
  | .modify h data =>
    .ok { m with
      cache := m.cache.setBuf h.buf { m.cache.buf h.buf with data := data }
      unwritten := Function.update m.unwritten h.buf true }
  | .bwrite h =>
    .ok { m with
      cache := bwrite m.cache h.buf
      unwritten := Function.update m.unwritten h.buf false
      stored := fun d n => if d = h.dev ∧ n = h.blockno then (m.cache.buf h.buf).data else m.stored d n }

/-- At most `nbuf` buffers are held; a buffer is written before it is let go. -/
def Disciplined (m : Client) : Op → Prop
  | .bread dev blockno => (insert (dev,blockno) (m.held.map Handle.block).toFinset).card ≤ nbuf
  | .brelse h => h ∈ m.held ∧ (m.unwritten h.buf = true → 1 < (m.held.map Handle.buf).count h.buf)
  | .modify h _ => h ∈ m.held
  | .bwrite h => h ∈ m.held

/-- Besides, a block is held by fewer handles than `refcnt` can count. -/
def Allowed (m : Client) (op : Op) : Prop :=
  m.Disciplined op ∧ match op with
    | .bread dev blockno => (m.held.map Handle.block).count (dev,blockno) + 1 < 4294967296
    | _ => True

/-- No holder of the block has changed it without writing it. -/
def Settled (m : Client) (dev blockno : Nat) : Prop :=
  ∀ h ∈ m.held, h.block = (dev,blockno) → m.unwritten h.buf = false

/-- Clients reached from `binit` by steps that satisfy the predicate. -/
inductive Reachable (allowed : Client → Op → Prop) (disk : Nat → Nat → Fs.Block) : Client → Prop
  | boot : Reachable allowed disk (boot disk)
  | step {m m' : Client} (op : Op) : Reachable allowed disk m → allowed m op → m.step op = .ok m' →
      Reachable allowed disk m'

end Client

section fields
variable (st : Bcache) (b c : Node) (v : Buf)

@[simp] theorem setBuf_same : (st.setBuf b v).buf b = v := Function.update_self _ _ _
theorem setBuf_other (h : c ≠ b) : (st.setBuf b v).buf c = st.buf c := Function.update_of_ne h _ _
@[simp] theorem setBuf_links : (st.setBuf b v).links = st.links := rfl
@[simp] theorem setBuf_disk : (st.setBuf b v).disk = st.disk := rfl

end fields

/-- Block of a buffer. -/
def Buf.key (v : Buf) : Nat × Nat := (v.dev,v.blockno)

/-- Not used since `binit`, or recycled and not yet read. -/
def Buf.Idle (v : Buf) : Prop := v.refcnt = 0 ∧ v.flags = 0

/-- Of the buffers for one block, only the first in the list was ever used. -/
def First (buf : Node → Buf) (order : List Node) : Prop :=
  order.Pairwise fun a b => (buf a).key = (buf b).key → (buf b).Idle

structure Inv (m : Client) (order : List Node) : Prop where
  ring : Represents m.cache.links head order
  all : ∀ b, b ∈ order ↔ b ≠ head
  first : First m.cache.buf order
  counts : Counts (fun b => ((m.cache.buf b).refcnt.toNat : Int)) (m.held.map Handle.buf)
  held : ∀ h ∈ m.held, h.buf ≠ head ∧ (m.cache.buf h.buf).key = h.block ∧ (m.cache.buf h.buf).flags = bValid
  flags : ∀ b, b ≠ head → (m.cache.buf b).flags = 0 ∨ (m.cache.buf b).flags = bValid
  clean : ∀ b, b ≠ head → (m.cache.buf b).flags = bValid → m.unwritten b = false →
    (m.cache.buf b).data = m.stored (m.cache.buf b).dev (m.cache.buf b).blockno
  unwritten : ∀ b, m.unwritten b = true → b ∈ m.held.map Handle.buf
  disk : m.cache.disk = m.stored

section lists
variable {buf buf' : Node → Buf} {xs ys : List Node} {c : Node}

/-- Buffer `c` changes; before it none has its block, after it only idle ones do. -/
theorem First.touch (first : First buf (xs ++ c :: ys)) (nodup : (xs ++ c :: ys).Nodup)
    (same : ∀ s, s ≠ c → buf' s = buf s) (before : ∀ a ∈ xs, (buf a).key ≠ (buf' c).key)
    (after : ∀ b ∈ ys, (buf' c).key = (buf b).key → (buf b).Idle) : First buf' (xs ++ c :: ys) := by
  obtain ⟨left,right,across⟩ := List.pairwise_append.mp first
  obtain ⟨_,tail,apart⟩ := List.nodup_append'.mp nodup
  have inside (a : Node) (h : a ∈ xs) : buf' a = buf a := by
    apply same
    rintro rfl
    exact apart h List.mem_cons_self
  have outside (b : Node) (h : b ∈ ys) : buf' b = buf b := by
    apply same
    rintro rfl
    exact (List.nodup_cons.mp tail).1 h
  refine List.pairwise_append.mpr ⟨?_,List.pairwise_cons.mpr ⟨?_,?_⟩,?_⟩
  · refine left.imp_of_mem ?_
    intro a b ha hb old
    rw [inside a ha,inside b hb]
    exact old
  · intro b hb equal
    rw [outside b hb] at equal ⊢
    exact after b hb equal
  · refine (List.pairwise_cons.mp right).2.imp_of_mem ?_
    intro a b ha hb old
    rw [outside a ha,outside b hb]
    exact old
  · intro a ha b hb equal
    rw [inside a ha] at equal
    rcases List.mem_cons.mp hb with rfl | hb
    · exact absurd equal (before a ha)
    · rw [outside b hb] at equal ⊢
      exact across a ha b (List.mem_cons_of_mem c hb) equal

/-- A buffer in use is the first for its block. -/
theorem First.used (first : First buf (xs ++ c :: ys)) (busy : ¬(buf c).Idle) :
    (∀ a ∈ xs, (buf a).key ≠ (buf c).key) ∧ ∀ b ∈ ys, (buf c).key = (buf b).key → (buf b).Idle := by
  obtain ⟨_,right,across⟩ := List.pairwise_append.mp first
  exact ⟨fun a ha equal => busy (across a ha c List.mem_cons_self equal),(List.pairwise_cons.mp right).1⟩

theorem First.front (first : First buf (xs ++ c :: ys)) (busy : ¬(buf c).Idle) : First buf (c :: (xs ++ ys)) := by
  obtain ⟨before,after⟩ := first.used busy
  obtain ⟨left,right,across⟩ := List.pairwise_append.mp first
  refine List.pairwise_cons.mpr ⟨?_,List.pairwise_append.mpr ⟨left,(List.pairwise_cons.mp right).2,?_⟩⟩
  · intro b inside equal
    rcases List.mem_append.mp inside with hb | hb
    · exact absurd equal.symm (before b hb)
    · exact after b hb equal
  · exact fun a ha b hb => across a ha b (List.mem_cons_of_mem c hb)

end lists

end Lxos.Bio
