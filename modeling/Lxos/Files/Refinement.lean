import Lxos.Files.Frugal

/-! The kernel refines the file service: from boot on, a program cannot tell them apart. -/
namespace Lxos.Files
open Lxos.Bytes Lxos.Fs Lxos.Kernel Lxos.Utils Lxos.Outcome Lxos.Places Lxos.Simulation

section kernel
variable {files : List Input} {data : Nat} {k₀ k k' : State} {log : List (Request × (Int × Output))}

/-- From boot on, all that the program is answered and finds in its memory is what the
service answers to its requests, until the disk is full; `exec` and the program's own steps
do not show. -/
theorem kernel_serves (booted : Booted files data k₀) (session : Session data k₀ log k) (enough : k.fs.exhausted = false) :
    answers Service.serve (initial files) (log.map Prod.fst) = .ok (log.map Prod.snd,service k) := by
  obtain ⟨⟨all,kpgdir,serving⟩,same⟩ := booted.serving
  rw [← same]
  exact (observed_refines root_marked booted.linked).run serving session enough

/-- The first call of a program of zeros: it opens the root directory. -/
theorem kernel_serves_first : ∃ k₀ k, Booted [shortFile] 2148597760 k₀ ∧
    Session 2148597760 k₀ [(.open_ [] 0,(0,.none))] k ∧
      answers Service.serve (initial [shortFile]) [.open_ [] 0] = .ok ([(0,.none)],service k) := by
  obtain ⟨k₀,booted,size,enough⟩ := booted_short
  have run : Run 2148597760 k₀ k₀ := Relation.ReflTransGen.refl
  obtain ⟨_,same⟩ := booted.serving
  obtain ⟨k,user,call,_,still,_⟩ := booted.calls (by decide) run enough size (program_zeros (booted.resident run) size)
    (show (0 : Nat).testBit 9 = false by decide) (by rw [same]; rfl)
  have session : Session 2148597760 k₀ [(.open_ [] 0,(0,.none))] k := .answered (.silent .start user) call
  exact ⟨k₀,k,booted,session,kernel_serves booted session still⟩

/-- No call but `exec` changes the memory of the program, except for the buffer that it is
given to read to. -/
theorem memory_kept (booted : Booted files data k₀) (run : Run data k₀ k) {call : Call} {r : Int} {q : Request}
    (ok : dispatch data k call = .ok (r,k')) (enough : k'.fs.exhausted = false) (asked : request k call = some q) :
    ∀ a < k.proc.sz, ¬((word k 1).getD 0 ≤ a ∧ a < (word k 1).getD 0 + extent r q) → userByte k' a = userByte k a := by
  obtain ⟨⟨all,kpgdir,serving⟩,_⟩ := booted.serving
  exact ((serving.run root_marked booted.linked run).1.dispatched root_marked ok enough asked).2

theorem memory_kept_first : ∃ k₀ k', Booted [shortFile] 2148597760 k₀ ∧
    dispatch 2148597760 (program zeros k₀) .open_ = .ok (0,k') ∧ userByte k' 4095 = 0 := by
  obtain ⟨k₀,booted,size,enough⟩ := booted_short
  have run : Run 2148597760 k₀ k₀ := Relation.ReflTransGen.refl
  have resident := booted.resident run
  have asked := program_zeros resident size
  obtain ⟨_,same⟩ := booted.serving
  obtain ⟨k,user,_,ok,still,_⟩ := booted.calls (by decide) run enough size asked
    (show (0 : Nat).testBit 9 = false by decide) (by rw [same]; rfl)
  have kept := memory_kept booted (run.tail user.step) ok still asked 4095 (by change 4095 < k₀.proc.sz; omega)
    (by rw [program_word resident size (by decide)]; decide)
  exact ⟨k₀,k,booted,ok,kept.trans (program_byte resident size (by decide))⟩

end kernel

end Lxos.Files
