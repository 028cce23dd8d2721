import Lxos.Kernel.Growth

/-! `copyout` on an arbitrary range of addresses, which may wrap around. It is right as
long as every page that it reaches has a page table, whose absence it does not notice. -/
namespace Lxos.Kernel
open Lxos.Bytes Lxos.Fs

/-- The user may write to the page of address `a`. -/
def Usable (m : Vm) (d : Page) (a : Nat) : Prop := (m.pte d (a / 4096)).present ∧ (m.pte d (a / 4096)).user

/-- The frame that address `a` is in. -/
def frameOf (m : Vm) (d : Page) (a : Nat) : Page := (m.pte d (a / 4096)).page

/-- The user frames are pairwise distinct, and none is the directory or a page table. -/
structure Separate (m : Vm) (d : Page) : Prop where
  single : ∀ a < 4294967296, ∀ b < 4294967296, Usable m d a → Usable m d b → frameOf m d a = frameOf m d b →
    a / 4096 = b / 4096
  apart : ∀ a < 4294967296, Usable m d a → frameOf m d a ≠ d ∧
    ∀ i < 1024, (m.table d i).present = true → (m.table d i).page ≠ frameOf m d a

/-- The first `c` bytes of the range hold the source, and no other byte has changed. -/
structure Copied (m : Vm) (d : Page) (va : Nat) (p : Buffer) (c : Nat) (m' : Vm) : Prop where
  byte : ∀ i < c, m'.frame (frameOf m d (u32 (va + i))) (u32 (va + i) % 4096) = p i
  other : ∀ q o, (∀ i < c, ¬(q = frameOf m d (u32 (va + i)) ∧ o = u32 (va + i) % 4096)) → m'.frame q o = m.frame q o
  table : m'.table = m.table
  freelist : m'.freelist = m.freelist
  refused : m'.refused = m.refused

section copyout
variable {d : Page} {m m' : Vm} {va len c n a b : Nat} {p : Buffer}

theorem pdx_eq (low : a < 4294967296) : pdx a = a / 4096 / 1024 := by
  unfold pdx
  omega

theorem Usable.table (usable : Usable m d a) (low : a < 4294967296) : (m.table d (pdx a)).present = true := by
  rw [pdx_eq low]
  exact table_of_pte usable.1

theorem pgrounddown_page (a : Nat) : pgrounddown a = a / 4096 * 4096 := rfl

theorem uva2ka_absent (low : n < 1048576) (absent : (m.table d (n / 1024)).present = false) :
    uva2ka m d (n * 4096) = .error .nullEntry := by
  have walk : (walkpgdir m d (n * 4096) false).1 = none := by simp [walkpgdir,pdx_page low,absent]
  unfold uva2ka
  rw [walk]

theorem uva2ka_present (low : n < 1048576) (present : (m.table d (n / 1024)).present = true) :
    uva2ka m d (n * 4096) =
      .ok (if (m.pte d n).present = true ∧ (m.pte d n).user = true then some (m.pte d n).page else none) := by
  have walk : (walkpgdir m d (n * 4096) false).1 = some ((m.table d (n / 1024)).page,n % 1024) := by
    simp [walkpgdir,pdx_page low,ptx_page,present]
  unfold uva2ka
  rw [walk,pte_present present]

/-- Two addresses that the user may write to are in different places. -/
theorem Separate.place (separate : Separate m d) (low : a < 4294967296) (low' : b < 4294967296) (here : Usable m d a)
    (there : Usable m d b) (frame : frameOf m d a = frameOf m d b) (offset : a % 4096 = b % 4096) : a = b := by
  have page := separate.single a low b low' here there frame
  omega

/-- Within a page the addresses follow one another. -/
theorem chunk_address (va : Nat) {c i : Nat} (inside : c ≤ i) (within_ : i - c < 4096 - u32 (va + c) % 4096) :
    u32 (va + i) / 4096 = u32 (va + c) / 4096 ∧ u32 (va + i) % 4096 = u32 (va + c) % 4096 + (i - c) := by
  unfold u32 at within_ ⊢
  omega

theorem copied_start (m : Vm) (d : Page) (va : Nat) (p : Buffer) : Copied m d va p 0 m :=
  ⟨fun i low => absurd low (Nat.not_lt_zero i),fun _ _ _ => rfl,rfl,rfl,rfl⟩

/-- The bytes of one page more are copied. -/
theorem Copied.chunk (copied : Copied m d va p c m') (separate : Separate m d) (width : len < 4294967296)
    (usable : ∀ i < c, Usable m d (u32 (va + i))) (here : Usable m d (u32 (va + c))) (inside : c + n ≤ len)
    (within_ : n ≤ 4096 - u32 (va + c) % 4096) :
    Copied m d va p (c + n) (m'.setFrame (frameOf m d (u32 (va + c)))
      (blit (m'.frame (frameOf m d (u32 (va + c)))) (u32 (va + c) % 4096) n fun i => p (c + i))) := by
  have same (i : Nat) (lower : c ≤ i) (upper : i < c + n) : frameOf m d (u32 (va + i)) = frameOf m d (u32 (va + c)) ∧
      u32 (va + i) % 4096 = u32 (va + c) % 4096 + (i - c) := by
    obtain ⟨page,offset⟩ := chunk_address va lower (by omega)
    exact ⟨by rw [frameOf,frameOf,page],offset⟩
  refine ⟨fun i low => ?_,fun q o out => ?_,copied.table,copied.freelist,copied.refused⟩
  · rcases Nat.lt_or_ge i c with old | new
    · rcases eq_or_ne (frameOf m d (u32 (va + i))) (frameOf m d (u32 (va + c))) with frame | frame
      · -- The same page is met again after wrapping around, at other bytes.
        have outside : u32 (va + i) % 4096 < u32 (va + c) % 4096 ∨ u32 (va + c) % 4096 + n ≤ u32 (va + i) % 4096 := by
          by_contra overlap
          have there : c ≤ c + (u32 (va + i) % 4096 - u32 (va + c) % 4096) := Nat.le_add_right _ _
          obtain ⟨frame',offset'⟩ := same _ there (by omega)
          have target : Usable m d (u32 (va + (c + (u32 (va + i) % 4096 - u32 (va + c) % 4096)))) := by
            obtain ⟨page,_⟩ := chunk_address va there (by omega)
            unfold Usable
            rw [page]
            exact here
          have twice := separate.place (u32_lt _) (u32_lt _) (usable i old) target (frame.trans frame'.symm) (by omega)
          unfold u32 at twice overlap
          omega
        rw [frame]
        change Function.update m'.frame _ _ _ _ = p i
        rw [Function.update_self,blit_outside outside,← frame]
        exact copied.byte i old
      · exact (congrFun (Function.update_of_ne frame _ _) _).trans (copied.byte i old)
    · obtain ⟨frame,offset⟩ := same i new low
      rw [frame,offset]
      change Function.update m'.frame _ _ _ _ = p i
      rw [Function.update_self,blit_inside (by omega),Nat.add_sub_cancel' new]
  · have before := copied.other q o fun i low => out i (by omega)
    rcases eq_or_ne q (frameOf m d (u32 (va + c))) with rfl | frame
    · refine Eq.trans ?_ before
      change Function.update m'.frame _ _ _ _ = _
      rw [Function.update_self]
      refine blit_outside ?_
      by_contra overlap
      have inside : c ≤ c + (o - u32 (va + c) % 4096) := Nat.le_add_right _ _
      obtain ⟨frame,offset⟩ := same _ inside (by omega)
      exact out _ (by omega) ⟨frame.symm,by omega⟩
    · exact (congrFun (Function.update_of_ne frame _ _) o).trans before

/-- How `copyout` ends, from byte `c` on. -/
inductive Ends (m : Vm) (d : Page) (va : Nat) (p : Buffer) (len : Nat) : Except Fault (Bool × Vm) → Prop
  | lost (b : Nat) (inside : b < len) (usable : ∀ i < b, Usable m d (u32 (va + i)))
      (absent : (m.table d (pdx (u32 (va + b)))).present = false) : Ends m d va p len (.error .nullEntry)
  | stopped (b : Nat) (m' : Vm) (inside : b < len) (usable : ∀ i < b, Usable m d (u32 (va + i)))
      (present : (m.table d (pdx (u32 (va + b)))).present = true) (bad : ¬Usable m d (u32 (va + b)))
      (copied : Copied m d va p b m') : Ends m d va p len (.ok (false,m'))
  | done (m' : Vm) (usable : ∀ i < len, Usable m d (u32 (va + i))) (copied : Copied m d va p len m') :
      Ends m d va p len (.ok (true,m'))

theorem copyoutLoop_ends (separate : Separate m d) (width : len < 4294967296) (fuel : Nat) {cur : Nat}
    (copied : Copied m d va p c m') (usable : ∀ i < c, Usable m d (u32 (va + i))) (upto : c ≤ len)
    (here : c < len → cur = u32 (va + c)) (enough : len < c + fuel) :
    Ends m d va p len (copyoutLoop d p len fuel m' cur c) := by
  induction fuel generalizing m' cur c with
  | zero => omega
  | succ fuel ih =>
    unfold copyoutLoop
    rcases Nat.lt_or_ge c len with more | all
    · obtain rfl := here more
      have low : u32 (va + c) / 4096 < 1048576 := by
        have := u32_lt (va + c)
        omega
      have row := pdx_eq (u32_lt (va + c))
      have entry : m'.pte d (u32 (va + c) / 4096) = m.pte d (u32 (va + c) / 4096) := by
        unfold Vm.pte
        rw [copied.table]
      rw [if_pos more,pgrounddown_page]
      dsimp only
      cases present : (m'.table d (u32 (va + c) / 4096 / 1024)).present with
      | false =>
        rw [uva2ka_absent low present]
        rw [copied.table,← row] at present
        exact .lost c more usable present
      | true =>
        rw [uva2ka_present low present,entry]
        rw [copied.table,← row] at present
        by_cases good : (m.pte d (u32 (va + c) / 4096)).present = true ∧ (m.pte d (u32 (va + c) / 4096)).user = true
        · rw [if_pos good]
          dsimp only
          have offset : u32 (va + c) - u32 (va + c) / 4096 * 4096 = u32 (va + c) % 4096 := by omega
          rw [offset]
          change Ends m d va p len (copyoutLoop d p len fuel
            (m'.setFrame (frameOf m d (u32 (va + c))) (blit (m'.frame (frameOf m d (u32 (va + c))))
              (u32 (va + c) % 4096) (min (4096 - u32 (va + c) % 4096) (len - c)) fun i => p (c + i)))
            (u32 (u32 (va + c) / 4096 * 4096 + 4096)) (c + min (4096 - u32 (va + c) % 4096) (len - c)))
          have bound : u32 (va + c) % 4096 < 4096 := Nat.mod_lt _ (by decide)
          have within_ := Nat.min_le_left (4096 - u32 (va + c) % 4096) (len - c)
          have inside : c + min (4096 - u32 (va + c) % 4096) (len - c) ≤ len := by omega
          refine ih (copied.chunk separate width usable good inside within_) (fun i upper => ?_) inside (fun rest => ?_)
            (by omega)
          · rcases Nat.lt_or_ge i c with old | new
            · exact usable i old
            · obtain ⟨page,_⟩ := chunk_address va new (by omega)
              unfold Usable
              rw [page]
              exact good
          · have whole : min (4096 - u32 (va + c) % 4096) (len - c) = 4096 - u32 (va + c) % 4096 := by omega
            rw [whole]
            unfold u32
            omega
        · rw [if_neg good]
          exact .stopped c m' more usable present good copied
    · obtain rfl : c = len := le_antisymm upto all
      rw [if_neg (Nat.lt_irrefl c)]
      exact .done m' usable copied

theorem copyout_ends (separate : Separate m d) (start : va < 4294967296) (width : len < 4294967296) :
    Ends m d va p len (copyout m d va p len) := by
  unfold copyout
  refine copyoutLoop_ends separate width (len + 1) (copied_start m d va p) (fun i low => absurd low (Nat.not_lt_zero i))
    (Nat.zero_le len) (fun _ => (u32_of_lt start).symm) (by omega)

/-- What is copied goes to user frames, so the tables are not written. -/
theorem Copied.tables (copied : Copied m d va p c m') (separate : Separate m d)
    (usable : ∀ i < c, Usable m d (u32 (va + i))) {q : Page}
    (table : q = d ∨ ∃ i < 1024, (m.table d i).present = true ∧ (m.table d i).page = q) : m'.frame q = m.frame q := by
  funext o
  refine copied.other q o fun i low same => ?_
  obtain ⟨apart,tables⟩ := separate.apart _ (u32_lt _) (usable i low)
  rcases table with rfl | ⟨j,bound,present,page⟩
  · exact apart same.1.symm
  · exact tables j bound present (page.trans same.1)

end copyout

end Lxos.Kernel
