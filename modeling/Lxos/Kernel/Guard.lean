import Lxos.Fs.Held
import Lxos.Kernel.Calls

/-! What path walks and `create` do to the references held, for any invariant of the
file system. The invariant speaks of the handles held, and has to obey one rule for
each operation of `fs.c`; the walks keep it then. -/
namespace Lxos.Kernel
open Lxos.Bytes Lxos.Fs Lxos.Outcome

/-- What a handle is for: to stay where it is, to read, or to read and write. -/
inductive Mode
  | cwd | read | write
deriving DecidableEq, Repr

abbrev Handle := Slot × Mode

/-- The slot is loaded with a directory. -/
def IsDir (st : FsState) (ip : Slot) : Prop := (st.icache ip).valid = true ∧ (st.icache ip).type = tDir

/-- The rules that make `Inv`, of the handles held and a state, an invariant. -/
structure Guard (Inv : List Handle → FsState → Prop) : Prop where
  perm : ∀ {hs hs' st}, Inv hs st → hs.Perm hs' → Inv hs' st
  print : ∀ {hs st} m, Inv hs st → m ≠ .ballocOut → m ≠ .iallocOut → Inv hs (kprint st m)
  stack : ∀ {hs st} b, Inv hs st → Inv hs { st with stack := b }
  grant : ∀ {hs st ip}, Inv ((ip,.read) :: hs) st → (st.icache ip).valid = true →
    (st.icache ip).type ≠ tDir → Inv ((ip,.write) :: hs) st
  weaken : ∀ {hs st ip}, Inv ((ip,.write) :: hs) st → Inv ((ip,.read) :: hs) st
  root : ∀ {hs st}, Inv hs st → hs.length < 50 →
    Meets Tolerated (iget st rootdev rootino) (fun r => Inv ((r.1,.read) :: hs) r.2)
  dup : ∀ {hs st ip m}, Inv hs st → (ip,m) ∈ hs → Inv ((ip,.read) :: hs) (idup st ip)
  lock : ∀ {hs st ip m}, Inv hs st → (ip,m) ∈ hs → Inv hs (ilock st ip)
  put : ∀ {hs st ip}, Inv ((ip,.read) :: hs) st → Inv hs (iput st ip)
  read : ∀ {hs st ip m} dst off n, Inv hs st → (ip,m) ∈ hs → (st.icache ip).valid = true → n < 4294967296 →
    Inv hs (readi st ip dst off n).2.2
  write : ∀ {hs st ip} src off n, Inv hs st → (ip,.write) ∈ hs → (st.icache ip).valid = true → n < 4294967296 →
    Inv hs (writei st ip src off n).2
  lookup : ∀ {hs st dp m} name, Inv hs st → hs.length < 50 → (dp,m) ∈ hs → IsDir st dp →
    Meets Tolerated (dirlookup st dp name) (fun r =>
      match r.1 with
      | none => Inv hs r.2 ∧ IsDir r.2 dp
      | some (ip,_) => Inv ((ip,.read) :: hs) r.2)
  enter : ∀ {hs st dp} name type major minor, Inv ((dp,.read) :: hs) st → hs.length < 48 → IsDir st dp →
    type ≠ 0 → type ≠ tDir →
    Meets Tolerated (createNew st dp name type major minor) (fun r => Inv ((r.1,.write) :: hs) r.2)

/-- The rules for calls that leave all files as they are. -/
structure Reader (Inv : List Handle → FsState → Prop) : Prop where
  perm : ∀ {hs hs' st}, Inv hs st → hs.Perm hs' → Inv hs' st
  print : ∀ {hs st} m, Inv hs st → m ≠ .ballocOut → m ≠ .iallocOut → Inv hs (kprint st m)
  root : ∀ {hs st}, Inv hs st → hs.length < 50 →
    Meets Tolerated (iget st rootdev rootino) (fun r => Inv ((r.1,.read) :: hs) r.2)
  dup : ∀ {hs st ip m}, Inv hs st → (ip,m) ∈ hs → Inv ((ip,.read) :: hs) (idup st ip)
  lock : ∀ {hs st ip m}, Inv hs st → (ip,m) ∈ hs → Inv hs (ilock st ip)
  put : ∀ {hs st ip}, Inv ((ip,.read) :: hs) st → Inv hs (iput st ip)
  read : ∀ {hs st ip m} dst off n, Inv hs st → (ip,m) ∈ hs → (st.icache ip).valid = true → n < 4294967296 →
    Inv hs (readi st ip dst off n).2.2
  lookup : ∀ {hs st dp m} name, Inv hs st → hs.length < 50 → (dp,m) ∈ hs → IsDir st dp →
    Meets Tolerated (dirlookup st dp name) (fun r =>
      match r.1 with
      | none => Inv hs r.2 ∧ IsDir r.2 dp
      | some (ip,_) => Inv ((ip,.read) :: hs) r.2)

theorem Guard.reads {Inv : List Handle → FsState → Prop} (guard : Guard Inv) : Reader Inv where
  perm := guard.perm
  print := guard.print
  root := guard.root
  dup := guard.dup
  lock := guard.lock
  put := guard.put
  read := guard.read
  lookup := guard.lookup

section guard
variable {Inv : List Handle → FsState → Prop} {hs : List Handle} {st : FsState} {ip dp : Slot} {m : Mode}

theorem Reader.unlock (reader : Reader Inv) (inv : Inv hs st) (ip : Slot) : Inv hs (iunlock st ip) := by
  unfold iunlock
  split
  · exact reader.print _ inv (by decide) (by decide)
  · exact inv

theorem Reader.unlockput (reader : Reader Inv) (inv : Inv ((ip,.read) :: hs) st) : Inv hs (iunlockput st ip) :=
  reader.put (reader.unlock inv ip)

theorem Guard.unlock (guard : Guard Inv) (inv : Inv hs st) (ip : Slot) : Inv hs (iunlock st ip) := guard.reads.unlock inv ip

theorem Guard.unlockput (guard : Guard Inv) (inv : Inv ((ip,.read) :: hs) st) : Inv hs (iunlockput st ip) :=
  guard.reads.unlockput inv

/-- Whatever a handle is for, it may be given back. -/
theorem Guard.reader (guard : Guard Inv) (inv : Inv ((ip,m) :: hs) st) (given : m ≠ .cwd) : Inv ((ip,.read) :: hs) st := by
  cases m with
  | cwd => exact absurd rfl given
  | read => exact inv
  | write => exact guard.weaken inv

theorem IsDir.unlock (dir : IsDir st dp) (ip : Slot) : IsDir (iunlock st ip) dp := by
  unfold IsDir
  rw [iunlock_icache]
  exact dir

theorem IsDir.lock (dir : IsDir st dp) : IsDir (ilock st dp) dp := by
  unfold IsDir
  rw [ilock_kept dir.1]
  exact dir

/-- The outcome of a path walk: a handle more, on a directory when the parent was asked for. -/
def Walked (Inv : List Handle → FsState → Prop) (hs : List Handle) (parent : Bool)
    (r : Option Slot × Buffer × FsState) : Prop :=
  match r.1 with
  | none => Inv hs r.2.2
  | some ip => Inv ((ip,.read) :: hs) r.2.2 ∧ (parent = true → IsDir r.2.2 ip)

theorem Reader.namexLoop (reader : Reader Inv) (parent : Bool) (fuel : Nat) (inv : Inv ((ip,.read) :: hs) st)
    (room : hs.length < 48) (path : List Byte) (name : Buffer) :
    Meets Tolerated (namexLoop parent fuel st ip path name) (Walked Inv hs parent) := by
  induction fuel generalizing st ip path name with
  | zero => exact Meets.error (by decide)
  | succ fuel ih =>
    unfold Fs.namexLoop
    cases skipelem path name with
    | none =>
      cases parent with
      | true => exact reader.put inv
      | false => exact ⟨inv,fun absurd => nomatch absurd⟩
    | some rest =>
      obtain ⟨rest,elem⟩ := rest
      have locked := reader.lock inv List.mem_cons_self
      have valid := ilock_valid st ip
      dsimp only
      generalize ilock st ip = st1 at locked valid ⊢
      split
      · exact reader.unlockput locked
      · rename_i directory
        have dir : IsDir st1 ip := ⟨valid,not_not.mp directory⟩
        split
        · exact ⟨reader.unlock locked ip,fun _ => dir.unlock ip⟩
        · have space : ((ip,Mode.read) :: hs).length < 50 := by
            rw [List.length_cons]
            omega
          rcases (reader.lookup elem locked space List.mem_cons_self dir).cases with
            ⟨e,fail,tolerated⟩ | ⟨⟨_ | ⟨next,off⟩,st2⟩,found,after⟩
          · rw [fail]
            exact tolerated
          · rw [found]
            exact reader.unlockput after.1
          · rw [found]
            exact ih (reader.unlockput (reader.perm after (List.Perm.swap _ _ _))) _ _

theorem Reader.namex (reader : Reader Inv) (inv : Inv hs st) (room : hs.length < 48) {cwd : Slot}
    (here : (cwd,m) ∈ hs) (path : List Byte) (parent : Bool) :
    Meets Tolerated (namex st cwd path parent) (Walked Inv hs parent) := by
  have start : Meets Tolerated (if path.head? = some slash then iget st rootdev rootino
      else .ok (cwd,idup st cwd)) (fun r => Inv ((r.1,.read) :: hs) r.2) := by
    split
    · exact reader.root inv (by omega)
    · exact reader.dup inv here
  unfold Fs.namex
  rcases start.cases with ⟨e,fail,tolerated⟩ | ⟨⟨ip,st1⟩,ok,after⟩
  · rw [fail]
    exact tolerated
  · rw [ok]
    exact reader.namexLoop parent _ after room _ _

theorem Reader.namei (reader : Reader Inv) (inv : Inv hs st) (room : hs.length < 48) {cwd : Slot}
    (here : (cwd,m) ∈ hs) (path : List Byte) : Meets Tolerated (namei st cwd path) (fun r =>
      match r.1 with
      | none => Inv hs r.2
      | some ip => Inv ((ip,.read) :: hs) r.2) := by
  unfold Fs.namei
  rcases (reader.namex inv room here path false).cases with ⟨e,fail,tolerated⟩ | ⟨⟨_ | ip,name,st1⟩,ok,after⟩
  · rw [fail]
    exact tolerated
  · rw [ok]
    exact after
  · rw [ok]
    exact after.1

theorem Guard.namex (guard : Guard Inv) (inv : Inv hs st) (room : hs.length < 48) {cwd : Slot}
    (here : (cwd,m) ∈ hs) (path : List Byte) (parent : Bool) :
    Meets Tolerated (namex st cwd path parent) (Walked Inv hs parent) := guard.reads.namex inv room here path parent

theorem Guard.namei (guard : Guard Inv) (inv : Inv hs st) (room : hs.length < 48) {cwd : Slot}
    (here : (cwd,m) ∈ hs) (path : List Byte) : Meets Tolerated (namei st cwd path) (fun r =>
      match r.1 with
      | none => Inv hs r.2
      | some ip => Inv ((ip,.read) :: hs) r.2) := guard.reads.namei inv room here path

/-- `create` returns the inode of a file with the right to write it. -/
theorem Guard.create (guard : Guard Inv) (inv : Inv hs st) (room : hs.length < 48) {cwd : Slot}
    (here : (cwd,m) ∈ hs) (path : List Byte) {type : BitVec 16} (some_type : type ≠ 0) (regular : type ≠ tDir)
    (major minor : BitVec 16) : Meets Tolerated (create st cwd path type major minor) (fun r =>
      match r.1 with
      | none => Inv hs r.2
      | some ip => Inv ((ip,.write) :: hs) r.2) := by
  unfold Kernel.create
  rcases (guard.namex inv room here path true).cases with ⟨e,fail,tolerated⟩ | ⟨⟨_ | dp,name,st1⟩,walk,after⟩
  · rw [nameiparent,fail]
    exact tolerated
  · rw [nameiparent,walk]
    exact after
  · rw [nameiparent,walk]
    obtain ⟨inv1,dir⟩ := after
    have inv2 := guard.lock inv1 List.mem_cons_self
    have dir2 := (dir rfl).lock
    dsimp only at inv2 dir2 ⊢
    generalize ilock st1 dp = st2 at inv2 dir2 ⊢
    have space : ((dp,Mode.read) :: hs).length < 50 := by
      rw [List.length_cons]
      omega
    rcases (guard.lookup name inv2 space List.mem_cons_self dir2).cases with
      ⟨e,fail,tolerated⟩ | ⟨⟨_ | ⟨ip,off⟩,st3⟩,found,inv3⟩
    · rw [fail]
      exact tolerated
    · rw [found]
      rcases (guard.enter name type major minor inv3.1 room inv3.2 some_type regular).cases with
        ⟨e,fail,tolerated⟩ | ⟨⟨ip,st4⟩,ok,inv4⟩
      · dsimp only
        rw [fail]
        exact tolerated
      · dsimp only
        rw [ok]
        exact inv4
    · rw [found]
      have inv4 := guard.lock (guard.unlockput (guard.perm inv3 (List.Perm.swap _ _ _))) List.mem_cons_self
      have valid := ilock_valid (iunlockput st3 dp) ip
      dsimp only at inv4 valid ⊢
      generalize ilock (iunlockput st3 dp) ip = st4 at inv4 valid ⊢
      split
      · rename_i file
        exact guard.grant inv4 valid (by rw [file.2]; decide)
      · exact guard.unlockput inv4

end guard

end Lxos.Kernel
