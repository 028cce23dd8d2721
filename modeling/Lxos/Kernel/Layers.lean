import Lxos.Kernel.Release

/-! The model of `fs.c` looks at the disk, and the code at buffers. All along a run both see
the same: the cache holds nothing that the disk does not hold, and each block that `fs.c`
asks for comes as the requests before have left it. -/
namespace Lxos.Kernel
open Lxos.Bytes Lxos.Fs Lxos.Nesting Lxos.Bio

section layers
variable {m : Vm} {kstack pgdir : Page} {disk : Nat → Nat → Block} {stack : Buffer} {data : Nat} {k₀ k : State}
  {c c' : Client} {content : Nat → Nat → Block} {dev n : Nat} {b : Node}

/-- Between two requests every buffer that is valid has its block. -/
theorem valid_buffer (idle : Idle c content) (real : b ≠ head) (valid : (c.cache.buf b).flags = bValid) :
    (c.cache.buf b).data = content (c.cache.buf b).dev (c.cache.buf b).blockno := by
  obtain ⟨order,inv⟩ := idle.inv
  rw [← idle.stored]
  exact inv.clean b real valid (idle.written b)

theorem requested_block (idle : Idle c content) (idle' : Idle c' content) (served : c.request (.bread dev n) = .ok c') :
    ∃ b cache, bread c.cache dev n = .ok (b,cache) ∧ (cache.buf b).key = (dev,n) ∧ (cache.buf b).data = content dev n := by
  dsimp only [Client.request,Client.step] at served
  cases found : bread c.cache dev n with
  | error e =>
    rw [found] at served
    cases served
  | ok r =>
    obtain ⟨b,cache⟩ := r
    rw [found] at served
    obtain rfl := Except.ok.inj served
    obtain ⟨order,inv⟩ := idle'.inv
    -- the handle of the new buffer is the first
    obtain ⟨real,block,valid⟩ := inv.held _ List.mem_cons_self
    obtain ⟨device,number⟩ := Prod.mk.inj block
    refine ⟨b,cache,rfl,block,?_⟩
    have same := valid_buffer idle' real valid
    dsimp only at same device number
    rw [same,device,number]

/-- From boot on, whatever the disk and the calls: the requests of `fs.c` are served one after
the other, the disk below is as they say, and no buffer differs from it. -/
theorem blocks_served (started : uinit m kstack pgdir (cold disk stack) = .ok k₀) (run : Run data k₀ k) :
    (∀ l, l <:+ k.fs.trace → ∃ c, (Client.boot disk).serve l = .ok c ∧ c.cache.disk = replay disk l ∧
      (∀ b, b ≠ head → (c.cache.buf b).flags = bValid →
        (c.cache.buf b).data = replay disk l (c.cache.buf b).dev (c.cache.buf b).blockno) ∧
      ∀ dev n, .bread dev n :: l <:+ k.fs.trace → ∃ b cache, bread c.cache dev n = .ok (b,cache) ∧
        (cache.buf b).key = (dev,n) ∧ (cache.buf b).data = replay disk l dev n) ∧
    k.fs.disk = replay disk k.fs.trace := by
  obtain ⟨es,since,nested,left⟩ := run_nests started run
  have whole : k.fs.trace = es := Eq.trans since (List.append_nil es)
  obtain ⟨_,served⟩ := serve_nested nested (boot_idle disk) (List.nil_subset _) (Nat.le_of_ble_eq_true rfl)
  rw [whole]
  refine ⟨fun l part => ?_,left⟩
  obtain ⟨c,ok,idle,_⟩ := served.during l part
  obtain ⟨order,inv⟩ := idle.inv
  refine ⟨c,ok,inv.disk.trans idle.stored,fun b real valid => valid_buffer idle real valid,fun dev n next => ?_⟩
  obtain ⟨c',ok',idle',_⟩ := served.during _ next
  obtain ⟨c₀,before,made⟩ := serve_before ok'
  obtain rfl := Except.ok.inj (ok.symm.trans before)
  exact requested_block idle idle' made

/-- The superblock, the first block that is asked for. -/
theorem blocks_served_first : ∃ b cache, bread (Client.boot fun _ n => fun _ => BitVec.ofNat 8 n).cache 1 1 = .ok (b,cache) ∧
    (cache.buf b).data 0 = 1 := by
  have law := @blocks_served _ _ _ _ _ 0 _ _ (uinit_eq ⟨fun _ _ => .zero,fun _ => zeros,[],[]⟩ 1 2 (fun _ n => fun _ => BitVec.ofNat 8 n) zeros)
    Relation.ReflTransGen.refl
  obtain ⟨c,served,_,_,next⟩ := law.1 [] (List.nil_suffix)
  obtain rfl := Except.ok.inj served
  obtain ⟨b,cache,ok,_,content⟩ := next 1 1 ⟨[.brelse 1 1],rfl⟩
  exact ⟨b,cache,ok,by rw [content]; rfl⟩

end layers

end Lxos.Kernel
