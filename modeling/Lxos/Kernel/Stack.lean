import Lxos.Kernel.Abort
import Lxos.Kernel.Segments

/-! The stack of a new program. Above a page that the user may not touch there is one for
the arguments and for the words under them; what does not fit there is not copied. -/
namespace Lxos.Kernel
open Lxos.Bytes Lxos.Fs Lxos.Outcome Lxos.Inventory

/-- Page `g` is kept from the user. -/
def guarded (g k : Nat) : Bool := decide (k ≠ g)

section push
variable {m m' : Vm} {d g sp w a : Nat} {b p : Buffer}

theorem pages_whole (g : Nat) : pages (g * 4096) = g := by
  unfold pages
  omega

/-- The size with the two pages, and from there the first of them again. -/
theorem next_pages (low : g ≤ 524288) : u32 (g * 4096 + 2 * pgsize) = (g + 2) * 4096 := by
  change u32 (g * 4096 + 8192) = _
  unfold u32
  omega

theorem guard_page (low : g ≤ 524288) : u32 ((g + 2) * 4096 + 4294967296 - 2 * pgsize) = g * 4096 := by
  change u32 ((g + 2) * 4096 + 4294967296 - 8192) = _
  unfold u32
  omega

theorem Contents.reachable (holds : Contents m d (g + 2) (guarded g) b) (low : a < 4294967296) (usable : Usable m d a) :
    a < (g + 2) * 4096 ∧ a / 4096 ≠ g := by
  obtain ⟨inside,user⟩ := (holds.usable_iff low).mp usable
  exact ⟨by omega,of_decide_eq_true user⟩

/-- What is copied below the stack pointer is in the last page. -/
theorem Contents.push (holds : Contents m d (g + 2) (guarded g) b) (positive : 0 < w) (small : w ≤ 2147483648)
    (low : (g + 1) * 4096 ≤ sp) (high : sp ≤ (g + 2) * 4096)
    (ok : copyout m d (u32 (sp + 4294967296 - w) / 4 * 4) p w = .ok (true,m')) : ∃ t,
    t = u32 (sp + 4294967296 - w) / 4 * 4 ∧ t % 4 = 0 ∧ (g + 1) * 4096 ≤ t ∧ t + w ≤ sp ∧ sp < t + w + 4 ∧
      Fills d m m' ∧ Contents m' d (g + 2) (guarded g) (blit b t w p) := by
  have bound := holds.bound
  have under := u32_lt (sp + 4294967296 - w)
  have ends : Ends m d (u32 (sp + 4294967296 - w) / 4 * 4) p w _ := copyout_ends holds.separate (by omega) (by omega)
  have fills := (copyout_spec holds.sealing (u32 (sp + 4294967296 - w) / 4 * 4) p w).elim ok
  rw [ok] at ends
  generalize ht : u32 (sp + 4294967296 - w) / 4 * 4 = t at ends fills
  refine ⟨t,rfl,by omega,?_⟩
  cases ends with
  | done m' usable copied =>
    have reach (i : Nat) (inside : i < w) := holds.reachable (u32_lt (t + i)) (usable i inside)
    have room : w ≤ sp := by
      -- Otherwise the address wraps around, and the kernel has that page.
      by_contra wrap
      have first := (reach 0 positive).1
      unfold u32 at ht first
      omega
    have start : u32 (sp + 4294967296 - w) = sp - w := by
      unfold u32
      omega
    rw [start] at ht
    have last : (g + 1) * 4096 ≤ t := by
      -- Otherwise the bytes just below the last page are copied too.
      by_contra below
      have inside : (g + 1) * 4096 - 4 - t < w := by omega
      have page := (reach _ inside).2
      unfold u32 at page
      omega
    have fit : t + w ≤ (g + 2) * 4096 := by omega
    exact ⟨last,by omega,by omega,fills,holds.copied copied fit⟩

end push

section args
variable {all : List Page} {kpgdir d : Page} {k₀ k k' : State} {argv : List (Nat × Nat)} {g sp sp' va : Nat} {b : Buffer}
  {pushed pushed' : List Nat}

/-- The memory of the calling process is as it was. -/
theorem Loading.userByte (paged : Paged all kpgdir k₀) (loading : Loading k₀ d k) (low : va < 2147483648) :
    userByte k va = userByte k₀ va := by
  unfold Kernel.userByte
  rw [translate_kept (loading.table paged) loading.proc]
  cases here : translate k₀.vm k₀.proc.pgdir va with
  | none => rfl
  | some r =>
    dsimp only
    rw [loading.building.frame r.1 (paged.taken (translate_frame low here))]

/-- At `ptr` there is a copy of the string `arg`, between `sp` and `top`. -/
structure Argument (k : State) (b : Buffer) (sp top : Nat) (arg : Nat × Nat) (ptr : Nat) : Prop where
  above : sp ≤ ptr
  below : ptr + arg.2 < top
  copy : ∀ j ≤ arg.2, b (ptr + j) = userByte k (arg.1 + j)

theorem Argument.lift {b' : Buffer} {low top top' ptr : Nat} {arg : Nat × Nat} (argument : Argument k b sp top arg ptr)
    (less : low ≤ sp) (more : top ≤ top') (same : ∀ a, sp ≤ a → a < top → b' a = b a) :
    Argument k b' low top' arg ptr := by
  obtain ⟨above,below,copy⟩ := argument
  refine ⟨less.trans above,by omega,fun j inside => ?_⟩
  rw [same _ (by omega) (by omega)]
  exact copy j inside

/-- The strings, one below the other. -/
theorem Loading.arguments (paged : Paged all kpgdir k₀) (loading : Loading k₀ d k) (strings : ∀ s ∈ argv, StringAt k₀ s.1 s.2)
    (holds : Contents k.vm d (g + 2) (guarded g) b) (low : (g + 1) * 4096 ≤ sp) (high : sp ≤ (g + 2) * 4096) (four : sp % 4 = 0)
    (ok : Kernel.pushArgs d argv k sp pushed = .ok (some (sp',pushed'),k')) :
    ∃ b' ptrs, pushed' = pushed ++ ptrs ∧ Loading k₀ d k' ∧ Contents k'.vm d (g + 2) (guarded g) b' ∧
      (g + 1) * 4096 ≤ sp' ∧ sp' ≤ sp ∧ sp' % 4 = 0 ∧ (∀ a, a < sp' ∨ sp ≤ a → b' a = b a) ∧
      List.Forall₂ (Argument k₀ b' sp' sp) argv ptrs := by
  induction argv generalizing k sp b pushed with
  | nil =>
    obtain ⟨same,rfl⟩ := Prod.mk.inj (Except.ok.inj ok)
    obtain ⟨rfl,rfl⟩ := Prod.mk.inj (Option.some.inj same)
    exact ⟨b,[],(List.append_nil _).symm,loading,holds,low,le_refl _,four,fun _ _ => rfl,.nil⟩
  | cons arg argv ih =>
    obtain ⟨addr,len⟩ := arg
    have string := strings (addr,len) List.mem_cons_self
    have limit := paged.limit
    have inside := string.inside
    dsimp only at inside
    unfold Kernel.pushArgs at ok
    split at ok
    · cases ok
    obtain ⟨now,touched,same,reading⟩ := loading.touch paged inside
    rw [touched] at ok
    dsimp only at ok
    rw [u32_of_lt (by omega : len + 1 < 4294967296)] at ok
    split at ok
    · cases ok
    · cases ok
    rename_i m copied
    rw [← same] at holds
    obtain ⟨t,rfl,aligned,last,room,_,fills,held⟩ := holds.push (Nat.succ_pos len) (by omega) low high copied
    generalize u32 (sp + 4294967296 - (len + 1)) / 4 * 4 = t at ok aligned last room held
    have further := reading.vm (reading.building.fills fills)
    obtain ⟨b',ptrs,rfl,loading',held',low',high',four',away,copies⟩ := ih (k := { now with vm := m }) further
      (fun s member => strings s (List.mem_cons_of_mem _ member)) held last (by omega) aligned ok
    refine ⟨b',t :: ptrs,by rw [List.append_assoc]; rfl,loading',held',low',by omega,four',fun a out => ?_,.cons ?_ ?_⟩
    · rw [away a (by omega),blit_outside (by omega)]
    · refine ⟨high',by dsimp only; omega,fun j below => ?_⟩
      dsimp only at below
      rw [away _ (by omega),blit_inside (by omega)]
      exact reading.userByte paged (by omega)
    · exact copies.imp fun _ _ argument => argument.lift (le_refl _) (by omega) fun _ _ _ => rfl

end args

end Lxos.Kernel
