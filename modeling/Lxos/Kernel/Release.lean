import Lxos.Bio.Service
import Lxos.Kernel.Pins

/-! Every buffer that `fs.c` pins is released. From any cache with room for two more,
and so along every run, `bget` finds a buffer. -/
namespace Lxos.Kernel
open Lxos.Bytes Lxos.Fs Lxos.Nesting Lxos.Bio

/-- What an operation asks of the buffer cache. Each block is released as often as it is
read, never before, and at most two are pinned at a time; a cache with room for two
serves it all and has the counts it had. -/
structure Releases (st st' : FsState) (es : List Event) : Prop where
  since : Since st st' es
  balanced : ∀ b, pins Event.act b es = 0
  pinned : ∀ dev n l, .brelse dev n :: l <:+ es → 1 ≤ pins Event.act (dev,n) l
  few : ∀ l, l <:+ es → 0 ≤ level Event.act l ∧ level Event.act l ≤ 2
  answered : ∀ c, Idle c st.disk → c.held.length + 2 ≤ nbuf →
    ∃ c', Answered 2 c c' es ∧ Idle c' st'.disk ∧ c'.held = c.held

/-- The operation releases what it pins. -/
def GivesBack (st st' : FsState) : Prop := ∃ es, Releases st st' es

section release
variable {st st' : FsState}

theorem GivesBack.of (nests : Nests 2 [] st st') : GivesBack st st' := by
  obtain ⟨es,since,nested,disk⟩ := nests
  refine ⟨es,since,fun b => (nested.pins b).1,fun dev n l part => ?_,nested.level.2,fun c idle room => ?_⟩
  · have after := (nested.pins (dev,n)).2 _ part
    have step : pins Event.act (dev,n) (.brelse dev n :: l) = -1 + pins Event.act (dev,n) l := by
      unfold pins
      rw [total_cons]
      exact congrArg (· + _) (if_pos rfl)
    omega
  · obtain ⟨c',served⟩ := serve_nested nested idle (List.nil_subset _) room
    exact ⟨c',served.answered idle,disk ▸ served.idle,served.held⟩

theorem Pinning.givesBack {α : Type} {r : Except Fault α} {left : α → FsState} (pinning : Pinning st r left) {a : α}
    (ok : r = .ok a) : GivesBack st (left a) := .of (Outcome.Meets.elim pinning ok)

end release

theorem namei_nests (st : FsState) (cwd : Slot) (path : List Byte) : Pinning st (namei st cwd path) Prod.snd := by
  unfold namei
  rcases (namex_nests st cwd path false).cases with ⟨e,fail,_⟩ | ⟨⟨r,name,st1⟩,ok,walked⟩
  · rw [fail]
    trivial
  · rw [ok]
    exact walked

theorem run_nests {data : Nat} {m : Vm} {kstack pgdir : Page} {disk : Nat → Nat → Block} {stack : Buffer} {k₀ k : State}
    (started : uinit m kstack pgdir (cold disk stack) = .ok k₀) (run : Run data k₀ k) :
    Nests 2 [] (cold disk stack) k.fs := by
  rw [uinit_eq] at started
  obtain rfl := Except.ok.inj started
  have counted := uinitState_safe m kstack pgdir disk stack
  have start : Nests 2 [] (cold disk stack) (uinitState m kstack pgdir disk stack).fs :=
    (Nests.quiet rfl rfl).trans ((readsb_nests _ rootdev).mono (by decide))
  have safe : Safe (fun hs st => Counted hs st ∧ Nests 2 [] (cold disk stack) st) (uinitState m kstack pgdir disk stack) :=
    ⟨counted.table,counted.inv,start⟩
  exact (safe.run (counted_guard.pinned _) run).inv.2

/-- Whatever the state, a function of `fs.c` that returns has released all it pinned, and
never pinned more than two buffers. Along every run of the process the buffer cache,
started empty, serves every request. -/
theorem released_buffers :
    (∀ st dev, GivesBack st (readsb st dev)) ∧
    (∀ st dev type r, ialloc st dev type = .ok r → GivesBack st r.2) ∧
    (∀ st ip, GivesBack st (iupdate st ip)) ∧
    (∀ st ip, GivesBack st (ilock st ip)) ∧
    (∀ st ip, GivesBack st (iput st ip)) ∧
    (∀ st ip dst off n, GivesBack st (readi st ip dst off n).2.2) ∧
    (∀ st ip src off n, GivesBack st (writei st ip src off n).2) ∧
    (∀ st dp name r, dirlookup st dp name = .ok r → GivesBack st r.2) ∧
    (∀ st dp name inum r, dirlink st dp name inum = .ok r → GivesBack st r.2) ∧
    (∀ st cwd path r, namei st cwd path = .ok r → GivesBack st r.2) ∧
    (∀ st cwd path type major minor r, create st cwd path type major minor = .ok r → GivesBack st r.2) ∧
    ∀ data m kstack pgdir disk stack k₀ k, uinit m kstack pgdir (cold disk stack) = .ok k₀ → Run data k₀ k →
      ∃ c, Answered 2 (Client.boot disk) c k.fs.trace ∧ c.held = [] ∧ c.stored = k.fs.disk := by
  refine ⟨fun st dev => ?_,fun st dev type r ok => ?_,fun st ip => ?_,fun st ip => ?_,fun st ip => ?_,
    fun st ip dst off n => ?_,fun st ip src off n => ?_,fun st dp name r ok => ?_,fun st dp name inum r ok => ?_,
    fun st cwd path r ok => ?_,fun st cwd path type major minor r ok => ?_,
    fun data m kstack pgdir disk stack k₀ k started run => ?_⟩
  · exact .of ((readsb_nests st dev).mono (by decide))
  · exact (ialloc_nests st dev type).givesBack ok
  · exact .of ((iupdate_nests st ip).mono (by decide))
  · exact .of ((ilock_nests st ip).mono (by decide))
  · exact .of (iput_nests st ip)
  · exact .of (readi_nests st ip dst off n)
  · exact .of (writei_nests st ip src off n)
  · exact (dirlookup_nests st dp name).givesBack ok
  · exact (dirlink_nests st dp name inum).givesBack ok
  · exact (namei_nests st cwd path).givesBack ok
  · exact (create_nests st cwd path type major minor).givesBack ok
  · obtain ⟨es,since,nested,disk_eq⟩ := run_nests started run
    obtain ⟨c,served⟩ := serve_nested nested (boot_idle disk) (List.nil_subset _) (Nat.le_of_ble_eq_true rfl)
    have whole : k.fs.trace = es := Eq.trans since (List.append_nil es)
    rw [whole,disk_eq]
    exact ⟨c,served.answered (boot_idle disk),served.held,served.idle.stored⟩

/-- The first process, before its first step, on a disk of zeros. -/
theorem released_buffers_start : ∃ c, Answered 2 (Client.boot fun _ _ => zeros) c
    (uinitState ⟨fun _ _ => .zero,fun _ => zeros,[],[]⟩ 1 2 (fun _ _ => zeros) zeros).fs.trace ∧ c.held = [] := by
  obtain ⟨c,answered,held,_⟩ := released_buffers.2.2.2.2.2.2.2.2.2.2.2 0 _ 1 2 _ zeros _ _
    (uinit_eq ⟨fun _ _ => .zero,fun _ => zeros,[],[]⟩ 1 2 (fun _ _ => zeros) zeros) Relation.ReflTransGen.refl
  exact ⟨c,answered,held⟩

end Lxos.Kernel
