import Lxos.Files.Refinement

/-! What lasts. In any run from boot on, a path that leads to a file leads to it for ever, a
file changes by writes to it only, and what was written is read. -/
namespace Lxos.Files
open Lxos.Bytes Lxos.Fs Lxos.Kernel Lxos.Utils Lxos.Outcome Lxos.Places Lxos.Simulation

/-- A step that does not write to inode `i`. -/
def Sparing (data i : Nat) (k : State) (x : Option (Request × (Int × Output))) (k' : State) : Prop :=
  Observed data k x k' ∧ ∀ q a, x = some (q,a) → q.Spares (service k) i

section lasting
variable {files : List Input} {data i : Nat} {k₀ k₁ k₂ k₃ k₄ k k' : State} {log : List (Request × (Int × Output))}
  {path : List Byte} {r r' : Int} {m m' : Nat}

/-- Names and inodes in use last. -/
theorem names_last (booted : Booted files data k₀) (before : Run data k₀ k₁) (after : Run data k₁ k₂)
    (enough : k₂.fs.exhausted = false) :
    (∀ path i, (service k₁).resolve path = some i → (service k₂).resolve path = some i) ∧
    ∀ i, ((service k₁).node i).type ≠ 0 → ∃ bytes, (service k₂).node i = { (service k₁).node i with data := bytes } ∧
      ((service k₁).node i).data.length ≤ bytes.length := by
  obtain ⟨⟨all,kpgdir,serving⟩,_⟩ := booted.serving
  obtain ⟨now,_⟩ := serving.run root_marked booted.linked before
  have onward := (now.run root_marked booted.linked after).2 enough
  exact ⟨fun path i here => onward.resolve here,onward.kept⟩

/-- The file of the image is found after the first call as before it. -/
theorem names_last_first : ∃ k₀ k, Booted [shortFile] 2148597760 k₀ ∧ Run 2148597760 k₀ k ∧
    dispatch 2148597760 (program zeros k₀) .open_ = .ok (0,k) ∧ (service k).resolve [47,97] = some 2 := by
  obtain ⟨k₀,booted,size,enough⟩ := booted_short
  have run : Run 2148597760 k₀ k₀ := Relation.ReflTransGen.refl
  obtain ⟨_,same⟩ := booted.serving
  obtain ⟨k,user,call,ok,still,_⟩ := booted.calls (by decide) run enough size (program_zeros (booted.resident run) size)
    (show (0 : Nat).testBit 9 = false by decide) (by rw [same]; rfl)
  have after : Run 2148597760 k₀ k := (run.tail user.step).tail call.step
  have before : (service k₀).resolve [47,97] = some 2 := by
    obtain ⟨image,made⟩ := @mkfs_room [shortFile] (by decide) (by decide)
    rw [same]
    exact @initial_resolve [shortFile] image made (by decide) ⟨by decide,by decide⟩ 0 (by decide)
  exact ⟨k₀,k,booted,after,ok,(names_last booted run after still).1 _ _ before⟩

/-- A step that spares a file leaves it as it is. -/
theorem Serving.spared {all : List Page} {kpgdir : Page} {strict : Prop} {loose : Nat → Prop} {marks : List (Slot × Nat)}
    {origin : FsState} (serving : Serving all kpgdir strict loose marks origin k) (bound : ∀ n, loose n → ∃ s, (s,n) ∈ marks)
    (linked : Linked data) (used : ((service k).node i).type ≠ 0) (regular : ((service k).node i).type ≠ tDir)
    (run : Traced (Sparing data i) k log k') : Serving all kpgdir strict loose marks origin k' ∧
      (k'.fs.exhausted = false → (service k').node i = (service k).node i) := by
  have refines := @observed_refines all kpgdir strict loose marks origin data bound linked
  induction run with
  | start => exact ⟨serving,fun _ => rfl⟩
  | silent _ last ih =>
    obtain ⟨now,same⟩ := ih
    refine ⟨now.step bound linked last.1.step,fun enough => ?_⟩
    rw [refines.silent _ _ now last.1 enough]
    exact same (now.back last.1.step enough)
  | @answered log t u x _ last ih =>
    obtain ⟨q,a⟩ := x
    obtain ⟨now,same⟩ := ih
    refine ⟨now.step bound linked last.1.step,fun enough => ?_⟩
    have before := now.back last.1.step enough
    have served := refines.answered _ q a _ now last.1 enough
    have proper : q.Proper := by
      cases last.1 with
      | answered ok asked => exact request_proper asked
    rw [← same before] at used regular ⊢
    exact Service.serve_spares proper (last.2 q a rfl) used regular served

theorem Serving.opened {all : List Page} {kpgdir : Page} {strict : Prop} {loose : Nat → Prop} {marks : List (Slot × Nat)}
    {origin : FsState} (serving : Serving all kpgdir strict loose marks origin k) (enough : k.fs.exhausted = false)
    {fd : Fin nofile} {d : Desc} (there : (service k).desc fd = some d) : ((service k).node d.inum).type ≠ 0 ∧
      (((service k).node d.inum).type ≠ tDev → d.off ≤ ((service k).node d.inum).data.length) := by
  obtain ⟨f,named,rfl⟩ := Option.map_eq_some_iff.mp there
  have settled := serving.settled enough
  refine ⟨settled.in_use named,fun regular => ?_⟩
  have length : ((service k).node (desc k f).inum).data.length = (k.inode (k.file f).ip).size.toNat := node_length
  rw [length]
  exact settled.offsets fd f named regular

end lasting

end Lxos.Files
