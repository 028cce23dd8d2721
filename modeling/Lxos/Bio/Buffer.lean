import Lxos.Fs.State
import Lxos.Library.Ring

/-! The buffer cache of `bio.c`. A node of the list is a buffer or the head; the
`prev` and `next` fields of all nodes are kept together. `iderw` stands for the
driver, which transfers the sector that the buffer names. -/
namespace Lxos.Bio
open Lxos.Bytes Lxos.Ring

abbrev nbuf : Nat := 30

abbrev Node := Fin 31

instance neZero_nodes : NeZero 31 := ⟨by decide⟩

def head : Node := 30

abbrev bValid : BitVec 32 := 2
abbrev bDirty : BitVec 32 := 4

/-- `struct buf`. -/
@[ext] structure Buf where
  flags : BitVec 32
  dev : Nat
  blockno : Nat
  refcnt : BitVec 32
  data : Fs.Block

structure Bcache where
  buf : Node → Buf
  links : Links Node
  disk : Nat → Nat → Fs.Block

namespace Bcache

/-- Static memory is zero before `binit`. -/
def boot (disk : Nat → Nat → Fs.Block) : Bcache where
  buf := fun _ => ⟨0,0,0,0,zeros⟩
  links := ⟨fun _ => head,fun _ => head⟩
  disk := disk

def setBuf (st : Bcache) (b : Node) (v : Buf) : Bcache := { st with buf := Function.update st.buf b v }

end Bcache

/-- The loop of `binit` over the first `n` buffers. -/
def binitLoop (links : Links Node) : Nat → Links Node
  | 0 => links
  | n+1 => push (binitLoop links n) head (Fin.ofNat 31 n)

def binit (st : Bcache) : Bcache :=
  let links : Links Node :=
    ⟨Function.update st.links.next head head,Function.update st.links.prev head head⟩
  { st with links := binitLoop links nbuf }

def bget (st : Bcache) (dev blockno : Nat) : Except Fs.Fault (Option Node × Bcache) :=
  let cached := fun b => (st.buf b).dev == dev && (st.buf b).blockno == blockno
  let unused := fun b => (st.buf b).refcnt == 0 && (st.buf b).flags &&& bDirty == 0
  match scan st.links.next head cached (nbuf+1) (st.links.next head) with
  | none => .error .hang
  | some (some b) => .ok (some b,st.setBuf b { st.buf b with refcnt := (st.buf b).refcnt + 1 })
  | some none =>
    match scan st.links.prev head unused (nbuf+1) (st.links.prev head) with
    | none => .error .hang
    | some (some b) =>
      .ok (some b,st.setBuf b
        { st.buf b with dev := dev,blockno := blockno,flags := 0,refcnt := 1 })
    | some none => .ok (none,st)

def iderw (st : Bcache) (b : Node) : Bcache :=
  let v := st.buf b
  let flags := (v.flags ||| bValid) &&& ~~~bDirty
  if v.flags &&& bDirty = 0 then
    st.setBuf b { v with data := st.disk v.dev v.blockno,flags := flags }
  else
    { st.setBuf b { v with flags := flags } with
      disk := fun d n => if d = v.dev ∧ n = v.blockno then v.data else st.disk d n }

def bread (st : Bcache) (dev blockno : Nat) : Except Fs.Fault (Node × Bcache) :=
  match bget st dev blockno with
  | .error e => .error e
  | .ok (none,_) => .error .nullBuffer
  | .ok (some b,st) => .ok (b,if (st.buf b).flags &&& bValid = 0 then iderw st b else st)

def bwrite (st : Bcache) (b : Node) : Bcache :=
  iderw (st.setBuf b { st.buf b with flags := (st.buf b).flags ||| bDirty }) b

def brelse (st : Bcache) (b : Node) : Bcache :=
  let st := st.setBuf b { st.buf b with refcnt := (st.buf b).refcnt - 1 }
  if (st.buf b).refcnt = 0 then { st with links := push (unlink st.links b) head b } else st

end Lxos.Bio
