import Lxos.Kernel.Chunks
import Lxos.Kernel.Paging
import Lxos.Kernel.Reclaim

/-! Stores to user memory, as the process sees them. Its pages are all different, so a copy
changes the addresses it is made to and no other. -/
namespace Lxos.Kernel
open Lxos.Bytes Lxos.Fs

section memory
variable {all : List Page} {kpgdir : Page} {k k' : State} {a b n va : Nat} {src : Buffer}

theorem Paged.holdings_single (paged : Paged all kpgdir k) : (holdings k.vm k.proc.pgdir).Nodup := by
  have whole := paged.conserve.nodup_iff.mpr paged.single
  have behind := (List.nodup_cons.mp (List.nodup_append.mp whole).2.1).2
  exact (List.nodup_append.mp behind).2.1

/-- Different addresses of the process are different bytes of memory. -/
theorem Paged.apart (paged : Paged all kpgdir k) (low : a < k.proc.sz) (low' : b < k.proc.sz) {place : Page × Nat}
    (here : translate k.vm k.proc.pgdir a = some place) (there : translate k.vm k.proc.pgdir b = some place) : a = b := by
  have limit := paged.limit
  rw [translate_eq (by omega)] at here there
  split at here
  · rename_i present
    split at there
    · rename_i present'
      obtain ⟨page,offset⟩ := Prod.mk.inj (Option.some.inj (here.trans there.symm))
      have row := mapped_single paged.holdings_single (by omega : a / 4096 < 524288) (by omega : b / 4096 < 524288)
        (if_pos present) ((if_pos present').trans (congrArg some page.symm))
      omega
    · cases there
  · cases here

theorem userByte_congr (vm : k'.vm = k.vm) (pgdir : k'.proc.pgdir = k.proc.pgdir) (a : Nat) : userByte k' a = userByte k a := by
  unfold userByte
  rw [vm,pgdir]

theorem userByte_at {page : Page} {o : Nat} (here : translate k.vm k.proc.pgdir a = some (page,o)) :
    userByte k a = k.vm.frame page o := by
  unfold userByte
  rw [here]

theorem storeUser_succ {page : Page} {o : Nat}
    (here : translate (storeUser k va src n).vm (storeUser k va src n).proc.pgdir (va + n) = some (page,o)) :
    storeUser k va src (n + 1) = { storeUser k va src n with
      vm := (storeUser k va src n).vm.setFrame page (Function.update ((storeUser k va src n).vm.frame page) o (src n)) } := by
  rw [storeUser]
  dsimp only
  rw [here]

/-- A copy to the memory of the process, as the process sees it. -/
theorem Paged.stored (paged : Paged all kpgdir k) (room : va + n ≤ k.proc.sz) (low : a < k.proc.sz) :
    userByte (storeUser k va src n) a = if va ≤ a ∧ a < va + n then src (a - va) else userByte k a := by
  induction n with
  | zero => exact (if_neg (by omega)).symm
  | succ n ih =>
    replace ih := ih (by omega)
    have proc := storeUser_proc k va src n
    have same (x : Nat) : translate (storeUser k va src n).vm k.proc.pgdir x = translate k.vm k.proc.pgdir x := by
      obtain ⟨frame,stored⟩ := storeUser_frame k va src n
      rw [stored]
      rfl
    obtain ⟨⟨page,o⟩,here⟩ := Option.isSome_iff_exists.mp (paged.resident.present (va + n) (by omega))
    obtain ⟨⟨page',o'⟩,there⟩ := Option.isSome_iff_exists.mp (paged.resident.present a low)
    have before : userByte (storeUser k va src n) a = (storeUser k va src n).vm.frame page' o' :=
      userByte_at (by rw [proc,same,there])
    have after : userByte (storeUser k va src (n + 1)) a =
        Function.update (storeUser k va src n).vm.frame page
          (Function.update ((storeUser k va src n).vm.frame page) o (src n)) page' o' := by
      rw [storeUser_succ (by rw [proc,same,here])]
      refine userByte_at ?_
      change translate (storeUser k va src n).vm (storeUser k va src n).proc.pgdir a = _
      rw [proc,same,there]
    rw [after]
    rcases eq_or_ne a (va + n) with rfl | other
    · obtain ⟨rfl,rfl⟩ := Prod.mk.inj (Option.some.inj (here.symm.trans there))
      rw [Function.update_self,Function.update_self,if_pos (by omega),Nat.add_sub_cancel_left]
    · have elsewhere : ¬(page' = page ∧ o' = o) := by
        rintro ⟨rfl,rfl⟩
        exact other (paged.apart low (by omega) there here)
      have kept : Function.update (storeUser k va src n).vm.frame page
          (Function.update ((storeUser k va src n).vm.frame page) o (src n)) page' o' = (storeUser k va src n).vm.frame page' o' := by
        rcases eq_or_ne page' page with rfl | away
        · have behind : o' ≠ o := fun same => elsewhere ⟨rfl,same⟩
          rw [Function.update_self,Function.update_of_ne behind]
        · rw [Function.update_of_ne away]
      rw [kept,← before,ih]
      have inside : (va ≤ a ∧ a < va + (n + 1)) ↔ va ≤ a ∧ a < va + n := by omega
      simp only [inside]

end memory

end Lxos.Kernel
