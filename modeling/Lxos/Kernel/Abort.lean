import Lxos.Kernel.Start

/-! A failed `exec` leaves everything as it was: the process, its memory, its files, the
references to inodes and the free pages. -/
namespace Lxos.Kernel
open Lxos.Bytes Lxos.Fs Lxos.Outcome Lxos.Inventory

section user
variable {all : List Page} {kpgdir : Page} {k k' : State} {va : Nat}

/-- What a user address translates to lies in pages of the address space. -/
theorem translate_kept (same : ∀ q ∈ holdings k.vm k.proc.pgdir, k'.vm.table q = k.vm.table q)
    (proc : k'.proc = k.proc) : translate k'.vm k'.proc.pgdir va = translate k.vm k.proc.pgdir va := by
  have directory := same k.proc.pgdir List.mem_cons_self
  unfold translate
  dsimp only
  rw [proc,directory]
  cases present : (k.vm.table k.proc.pgdir (pdx va)).present with
  | false => simp
  | true =>
    rw [same _ (mem_holdings.mpr (Or.inr ⟨.table (pdx va),mem_table.mpr (pdx_lt va),at_table present⟩))]

/-- A user address translates to a frame of the address space. -/
theorem translate_frame (low : va < 2147483648) {r : Page × Nat} (here : translate k.vm k.proc.pgdir va = some r) :
    r.1 ∈ holdings k.vm k.proc.pgdir := by
  unfold translate at here
  dsimp only at here
  split at here
  · rename_i both
    rw [← Option.some.inj here]
    exact mem_holdings.mpr (Or.inr ⟨.frame (pdx va) (ptx va),mem_frame.mpr ⟨pdx_user low,ptx_lt va⟩,if_pos both⟩)
  · cases here

theorem Kept.userByte (paged : Paged all kpgdir k) (kept : Kept k k') (low : va < 2147483648) :
    userByte k' va = userByte k va := by
  unfold Kernel.userByte
  rw [translate_kept (fun q owned => kept.table q (paged.taken owned)) kept.proc]
  cases here : translate k.vm k.proc.pgdir va with
  | none => rfl
  | some r =>
    dsimp only
    rw [kept.frame r.1 (paged.taken (translate_frame low here))]

/-- The references are determined by the handles held. -/
theorem Kept.ref (kept : Kept k k') (safe : Safe Counted k) (safe' : Safe Counted k') (s : Slot) :
    (k'.fs.icache s).ref = (k.fs.icache s).ref := by
  have handles : k'.handles = k.handles := by
    rw [State.handles,kept.file,kept.proc]
    rfl
  refine (safe'.inv.counts s).trans ?_
  rw [handles]
  exact (safe.inv.counts s).symm

end user

end Lxos.Kernel
