import Lxos.Kernel.Extent
import Lxos.Kernel.Exec

/-! The address space that `exec` builds. Its pages come from the free list, so that
nothing else is disturbed while it grows and is filled. -/
namespace Lxos.Kernel
open Lxos.Bytes Lxos.Fs Lxos.Outcome Lxos.Inventory

/-- An address space made of pages that were free in `m₀`. -/
structure Building (m₀ : Vm) (d : Page) (m : Vm) : Prop where
  conserve : (m.freelist ++ holdings m d).Perm m₀.freelist
  table : ∀ q ∉ m₀.freelist, m.table q = m₀.table q
  frame : ∀ q ∉ m₀.freelist, m.frame q = m₀.frame q
  sealing : Sealed m d

/-- Only the frames of the address space are written. -/
structure Fills (d : Page) (m m' : Vm) : Prop where
  table : m'.table = m.table
  freelist : m'.freelist = m.freelist
  refused : m'.refused = m.refused
  frame : ∀ q ∉ holdings m d, m'.frame q = m.frame q

section building
variable {m₀ m m' m'' : Vm} {d p : Page} {n : Nat}

theorem Building.step (building : Building m₀ d m) (works : Works d [] [] m m') (sealing : Sealed m d → Sealed m' d) :
    Building m₀ d m' := by
  have outside (q : Page) (out : q ∉ m₀.freelist) : q ∉ pool [] m d := fun h => out (building.conserve.mem_iff.mp h)
  refine ⟨works.conserve.trans building.conserve,fun q out => ?_,fun q out => ?_,sealing building.sealing⟩
  · exact (works.table q (outside q out)).trans (building.table q out)
  · exact (works.frame q (outside q out)).trans (building.frame q out)

theorem Building.nodup (building : Building m₀ d m) (single : m₀.freelist.Nodup) : (pool [] m d).Nodup :=
  building.conserve.nodup_iff.mpr single

theorem Fills.refl (d : Page) (m : Vm) : Fills d m m := ⟨rfl,rfl,rfl,fun _ _ => rfl⟩

theorem Vm.at_table (same : m'.table = m.table) (place : Place) : m'.at d place = m.at d place := by
  cases place <;> simp only [Vm.at,same]

theorem holdings_table (same : m'.table = m.table) (d : Page) : holdings m' d = holdings m d := by
  unfold holdings
  rw [inventory_congr fun place _ => Vm.at_table same place]

theorem Fills.trans (first : Fills d m m') (second : Fills d m' m'') : Fills d m m'' where
  table := second.table.trans first.table
  freelist := second.freelist.trans first.freelist
  refused := second.refused.trans first.refused
  frame := fun q out =>
    (second.frame q (by rw [holdings_table first.table]; exact out)).trans (first.frame q out)

theorem Fills.works (fills : Fills d m m') : Works d [] [] m m' := by
  refine ⟨?_,fun q _ => by rw [fills.table],fun q out => fills.frame q fun h => out ?_,fun willing => ?_⟩
  · rw [pool,pool,fills.freelist,holdings_table fills.table]
  · exact mem_pool.mpr (Or.inr (Or.inr h))
  · rw [fills.refused]
    exact willing

theorem Fills.sealing (fills : Fills d m m') (sealing : Sealed m d) : Sealed m' d := by
  intro i
  rw [fills.table]
  exact sealing i

theorem Fills.extent (fills : Fills d m m') (extent : Extent m d n) : Extent m' d n := by
  intro i hi j hj
  rw [Vm.at_table fills.table]
  exact extent i hi j hj

theorem Building.fills (building : Building m₀ d m) (fills : Fills d m m') : Building m₀ d m' :=
  building.step fills.works fills.sealing

theorem setFrame_fills (inside : p ∈ holdings m d) (b : Buffer) : Fills d m (m.setFrame p b) := by
  refine ⟨rfl,rfl,rfl,fun q out => Function.update_of_ne ?_ _ _⟩
  rintro rfl
  exact out inside

/-- Where `walkpgdir` finds an entry, and what it says. -/
theorem walkpgdir_found {va : Nat} (present : (m.table d (pdx va)).present = true) :
    (walkpgdir m d va false).1 = some ((m.table d (pdx va)).page,ptx va) := by
  simp [walkpgdir,present]

theorem walkpgdir_some {va : Nat} {r : Page × Nat} (found : (walkpgdir m d va false).1 = some r) :
    (m.table d (pdx va)).present = true ∧ r = ((m.table d (pdx va)).page,ptx va) := by
  unfold walkpgdir at found
  cases present : (m.table d (pdx va)).present with
  | true =>
    simp only [present,if_true,Option.some.injEq] at found
    exact ⟨rfl,found.symm⟩
  | false => simp [present] at found

/-- Taking a page from the user changes neither what is mapped nor the seal. -/
theorem clearpteu_spec (nodup : (pool [] m d).Nodup) (uva : Nat) : Meets (· = .nullEntry) (clearpteu m d uva)
    (fun m' => Works d [] [] m m' ∧ (Sealed m d → Sealed m' d) ∧ ∀ n, Extent m d n → Extent m' d n) := by
  unfold clearpteu
  cases found : (walkpgdir m d uva false).1 with
  | none => exact Meets.error rfl
  | some r =>
    obtain ⟨present,rfl⟩ := walkpgdir_some found
    have single := holdings_nodup nodup
    have low := pdx_lt uva
    dsimp only
    generalize he : ({ m.table (m.table d (pdx uva)).page (ptx uva) with user := false } : Entry) = e
    have kept (place : Place) (inside : place ∈ places) :
        (m.setEntry (m.table d (pdx uva)).page (ptx uva) e).at d place = m.at d place := by
      rw [setEntry_at single low present inside]
      split
      · rename_i same
        rw [same,← he]
        simp [Vm.at,present]
      · rfl
    refine ⟨⟨?_,fun q out => setEntry_outside low present out,fun _ _ => rfl,id⟩,?_,fun n extent i hi j hj => ?_⟩
    · have same : holdings (m.setEntry (m.table d (pdx uva)).page (ptx uva) e) d = holdings m d := by
        unfold holdings
        rw [inventory_congr kept]
      rw [pool,pool,same]
      rfl
    · exact setEntry_sealed single low present (Or.inr (by rw [← he]))
    · rw [kept _ (mem_frame.mpr ⟨hi,hj⟩)]
      exact extent i hi j hj

/-- The frame under a mapped user address. -/
theorem Extent.mapped (extent : Extent m d n) {va : Nat} (user : va < 2147483648) (inside : va < n * 4096) :
    (m.table d (pdx va)).present = true ∧
      m.at d (.frame (pdx va) (ptx va)) = some (m.table (m.table d (pdx va)).page (ptx va)).page := by
  have low := pdx_user user
  have column := ptx_lt va
  have row : pdx va * 1024 + ptx va = va / 4096 := by
    unfold pdx ptx
    omega
  have here := (extent _ low _ column).mpr (by omega)
  simp only [Vm.at] at here ⊢
  split at here
  · rename_i both
    exact ⟨both.1,if_pos both⟩
  · cases here

theorem Extent.translate (extent : Extent m d n) {va : Nat} (user : va < 2147483648) (inside : va < n * 4096) :
    (translate m d va).isSome := by
  obtain ⟨present,here⟩ := extent.mapped user inside
  simp only [Vm.at] at here
  split at here
  · rename_i both
    simp [Kernel.translate,both]
  · cases here

/-- `loaduvm` writes frames of the address space, which holds the segment. -/
theorem loaduvm_spec (fs : FsState) {addr sz s : Nat} (ip : Slot) (offset : Nat) (extent : Extent m d (pages s))
    (limit : s < 2147483648) (aligned : addr % 4096 = 0) (inside : addr + sz ≤ s) :
    ∃ r fs' m', loaduvm fs m d addr ip offset sz = .ok (r,fs',m') ∧ Fills d m m' := by
  have loop (fuel : Nat) (fs : FsState) (m : Vm) (c : Nat) (extent : Extent m d (pages s))
      (enough : sz ≤ (c + fuel) * 4096) :
      ∃ r fs' m', loaduvmLoop d addr ip offset sz (fuel + 1) fs m (c * 4096) = .ok (r,fs',m') ∧ Fills d m m' := by
    induction fuel generalizing fs m c with
    | zero =>
      unfold loaduvmLoop
      rw [if_neg (by omega)]
      exact ⟨true,fs,m,rfl,Fills.refl d m⟩
    | succ fuel ih =>
      unfold loaduvmLoop
      rcases Nat.lt_or_ge (c * 4096) sz with more | done
      · rw [if_pos more]
        have at_ : u32 (addr + c * 4096) = addr + c * 4096 := u32_of_lt (by omega)
        have next : u32 (c * 4096 + pgsize) = (c + 1) * 4096 := by
          have width : c * 4096 + 4096 < 4294967296 :=
            Nat.lt_of_lt_of_le (Nat.add_lt_add_right more 4096) (by omega)
          exact (u32_of_lt width).trans (Nat.succ_mul c 4096).symm
        rw [at_]
        have remains : c + 1 + fuel = c + (fuel + 1) := by omega
        have below : addr + c * 4096 < pages s * 4096 := by
          unfold pages
          omega
        obtain ⟨present,here⟩ := extent.mapped (by omega) below
        rw [walkpgdir_found present]
        dsimp only
        generalize readi fs ip (m.frame (m.table (m.table d (pdx (addr + c * 4096))).page (ptx (addr + c * 4096))).page)
          (u32 (offset + c * 4096)) (min (sz - c * 4096) pgsize) = result
        obtain ⟨r,dst,fs1⟩ := result
        have member := mem_holdings.mpr (Or.inr ⟨_,mem_frame.mpr ⟨pdx_user (by omega),ptx_lt _⟩,here⟩)
        have fills := setFrame_fills member dst
        dsimp only
        rw [next]
        split
        · exact ⟨false,fs1,_,rfl,fills⟩
        · obtain ⟨r,fs2,m2,ok,fills2⟩ := ih fs1 _ (c + 1) (fills.extent extent) (by rw [remains]; exact enough)
          exact ⟨r,fs2,m2,ok,fills.trans fills2⟩
      · rw [if_neg (by omega)]
        exact ⟨true,fs,m,rfl,Fills.refl d m⟩
  have whole := loop 1048576 fs m 0 extent (by omega)
  rw [Nat.zero_mul] at whole
  exact whole

/-- `copyout` writes only what the user may: frames of the address space. -/
theorem copyout_spec (sealing : Sealed m d) (va : Nat) (p : Buffer) (len : Nat) :
    Meets (· = .nullEntry) (copyout m d va p len) (fun r => Fills d m r.2) := by
  have loop (fuel : Nat) (m : Vm) (va done : Nat) (sealing : Sealed m d) (enough : len ≤ done + fuel) :
      Meets (· = .nullEntry) (copyoutLoop d p len (fuel + 1) m va done) (fun r => Fills d m r.2) := by
    induction fuel generalizing m va done with
    | zero =>
      unfold copyoutLoop
      rw [if_neg (by omega)]
      exact Fills.refl d m
    | succ fuel ih =>
      unfold copyoutLoop
      split
      · rename_i more
        dsimp only [uva2ka]
        cases found : (walkpgdir m d (pgrounddown va) false).1 with
        | none => exact Meets.error rfl
        | some r =>
          obtain ⟨present,rfl⟩ := walkpgdir_some found
          dsimp only
          by_cases allowed : (m.table (m.table d (pdx (pgrounddown va))).page (ptx (pgrounddown va))).present = true ∧
              (m.table (m.table d (pdx (pgrounddown va))).page (ptx (pgrounddown va))).user = true
          · rw [if_pos allowed]
            have user : pdx (pgrounddown va) < 512 := by
              by_contra kernel
              have closed := sealing _ (by omega) (pdx_lt _) present (ptx (pgrounddown va))
              rw [allowed.2] at closed
              cases closed
            have member := mem_holdings.mpr (Or.inr ⟨_,mem_frame.mpr ⟨user,ptx_lt (pgrounddown va)⟩,
              if_pos ⟨present,allowed.1⟩⟩)
            have amount : 0 < min (pgsize - (va - pgrounddown va)) (len - done) := by
              have : va - pgrounddown va < 4096 := by
                change va - va / 4096 * 4096 < 4096
                omega
              change 0 < min (4096 - (va - pgrounddown va)) (len - done)
              omega
            have fills := setFrame_fills member (blit
              (m.frame (m.table (m.table d (pdx (pgrounddown va))).page (ptx (pgrounddown va))).page)
              (va - pgrounddown va) (min (pgsize - (va - pgrounddown va)) (len - done)) (fun i => p (done + i)))
            exact (ih _ _ _ (fills.sealing sealing) (by omega)).mono fun r later => fills.trans later
          · rw [if_neg allowed]
            exact Fills.refl d m
      · exact Fills.refl d m
  exact loop len m va 0 sealing (by omega)

/-- The loop over the program headers, whatever they say. -/
theorem loadProgram_spec (single : m₀.freelist.Nodup) (ip : Slot) (phnum : Nat) (fs : FsState) {sz : Nat} (off : Nat)
    (building : Building m₀ d m) (extent : Extent m d (pages sz)) (limit : sz < 2147483648) :
    ∃ r fs' m', loadProgram d ip phnum fs m sz off = .ok (r,fs',m') ∧ Building m₀ d m' ∧
      ∀ s, r = some s → s < 2147483648 ∧ Extent m' d (pages s) := by
  induction phnum generalizing fs m sz off with
  | zero =>
    refine ⟨some sz,fs,m,rfl,building,fun s same => ?_⟩
    rw [← Option.some.inj same]
    exact ⟨limit,extent⟩
  | succ phnum ih =>
    have stop (fs : FsState) (m : Vm) (building : Building m₀ d m) : ∃ r fs' m',
        (.ok (none,fs,m) : Except Fault (Option Nat × FsState × Vm)) = .ok (r,fs',m') ∧ Building m₀ d m' ∧
          ∀ s, r = some s → s < 2147483648 ∧ Extent m' d (pages s) :=
      ⟨none,fs,m,rfl,building,fun s absurd => nomatch absurd⟩
    unfold loadProgram
    generalize readi fs ip fs.stack off proghdrSize = result
    obtain ⟨r,b,fs1⟩ := result
    dsimp only
    have width : (Proghdr.decode b).vaddr < 4294967296 ∧ (Proghdr.decode b).memsz < 4294967296 :=
      ⟨(le32 b 8).isLt,(le32 b 20).isLt⟩
    generalize Proghdr.decode b = ph at width ⊢
    split
    · exact stop fs1 m building
    split
    · exact ih fs1 _ building extent limit
    split
    · exact stop fs1 m building
    rename_i large
    split
    · exact stop fs1 m building
    rename_i wrap
    have sum : u32 (ph.vaddr + ph.memsz) = ph.vaddr + ph.memsz := by
      unfold u32 at wrap ⊢
      omega
    obtain ⟨r,m1,ok,works,sealing,s,low,reach,_,result⟩ :=
      allocuvm_spec (x := []) (building.nodup single) limit extent (u32 (ph.vaddr + ph.memsz))
    have building1 := building.step works sealing
    rw [ok]
    dsimp only
    split
    · exact stop fs1 m1 building1
    rename_i grown
    split
    · exact stop fs1 m1 building1
    rename_i aligned
    obtain ⟨rfl,bound⟩ := result.resolve_left grown
    rw [sum] at bound
    obtain ⟨done,fs2,m2,ok2,fills⟩ := loaduvm_spec fs1 ip ph.off reach low (not_not.mp aligned)
      (by omega : ph.vaddr + ph.filesz ≤ r)
    have building2 := building1.fills fills
    rw [ok2]
    cases done with
    | false => exact stop fs2 m2 building2
    | true => exact ih fs2 _ building2 (fills.extent reach) low

end building

end Lxos.Kernel
