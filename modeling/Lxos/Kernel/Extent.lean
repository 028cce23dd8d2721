import Lxos.Kernel.Mapping

/-! How far an address space reaches: `setupkvm` makes an empty one, `allocuvm` lets
it grow without gaps, or gives back what it took. -/
namespace Lxos.Kernel
open Lxos.Bytes Lxos.Fs Lxos.Outcome Lxos.Inventory

/-- The first `n` user pages are mapped, and no other. -/
def Extent (m : Vm) (d : Page) (n : Nat) : Prop :=
  ∀ i < 512, ∀ j < 1024, (m.at d (.frame i j)).isSome ↔ i * 1024 + j < n

/-- The number of pages that `sz` bytes take. -/
def pages (sz : Nat) : Nat := (sz + 4095) / 4096

theorem pgroundup_eq {sz : Nat} (low : sz ≤ 2147483648) : pgroundup sz = pages sz * 4096 := by
  unfold pgroundup pages
  rw [u32_of_lt (by omega)]

/-- Where the linker puts the data segment of the kernel. -/
structure Linked (data : Nat) : Prop where
  aligned : data % 4096 = 0
  after : kernlink < data
  inside : data < kernbase + phystop

section kernel
variable {d : Page} {x : List Page} {m : Vm} {data : Nat}

/-- A line of `kmap` that lies above the user's addresses. -/
structure Kmap.High (k : Kmap) : Prop where
  start : 2147483648 ≤ pgrounddown k.virt
  ends : pgrounddown k.virt ≤ pgrounddown (u32 (k.virt + k.size + 4294967295))

theorem kmap_high (linked : Linked data) (k : Kmap) (line : k ∈ kmap data) : k.High := by
  obtain ⟨aligned,after,inside⟩ := linked
  change 2148532224 < data at after
  change data < 2147483648 + 234881024 at inside
  simp only [kmap,List.mem_cons,List.not_mem_nil,or_false] at line
  rcases line with rfl | rfl | rfl | rfl
  · exact ⟨by decide,by decide⟩
  · refine ⟨(by decide : 2147483648 ≤ pgrounddown kernlink),?_⟩
    have top : u32 (2148532224 + (data - 2148532224) + 4294967295) = data - 1 := by
      unfold u32
      omega
    change 2148532224 / 4096 * 4096 ≤ u32 (2148532224 + (data - 2148532224) + 4294967295) / 4096 * 4096
    omega
  · refine ⟨?_,?_⟩
    · change 2147483648 ≤ data / 4096 * 4096
      omega
    · have top : u32 (data + (234881024 - (data - 2147483648)) + 4294967295) = 2382364671 := by
        unfold u32
        omega
      change data / 4096 * 4096 ≤ u32 (data + (234881024 - (data - 2147483648)) + 4294967295) / 4096 * 4096
      omega
  · exact ⟨by decide,by decide⟩

theorem setupkvmLoop_spec (ks : List Kmap) (high : ∀ k ∈ ks, k.High) (nodup : (pool x m d).Nodup) :
    ∃ r m', setupkvmLoop d ks m = .ok (r,m') ∧ Works d x x m m' ∧ Steady d m m' ∧
      (Plenty d m → r = true ∧ Plenty d m') := by
  induction ks generalizing m with
  | nil => exact ⟨true,m,rfl,Works.refl d x m,Steady.refl d m,fun plenty => ⟨rfl,plenty⟩⟩
  | cons k ks ih =>
    have line := high k List.mem_cons_self
    have width := u32_lt (k.virt + k.size + 4294967295)
    have start : pgrounddown k.virt = k.virt / 4096 * 4096 := rfl
    have ends : pgrounddown (u32 (k.virt + k.size + 4294967295)) = u32 (k.virt + k.size + 4294967295) / 4096 * 4096 := rfl
    obtain ⟨r,m1,ok,works,steady,rich⟩ := mapKernel_spec (pgrounddown (u32 (k.virt + k.size + 4294967295))) k.writable
      1048576 (k.physStart / pgsize) nodup line.start line.ends (by omega) (by omega) (by omega) (by omega)
    unfold setupkvmLoop mappages
    rw [ok]
    cases r with
    | false => exact ⟨false,m1,rfl,works,steady,rich⟩
    | true =>
      obtain ⟨r,m2,ok2,works2,steady2,rich2⟩ :=
        ih (fun k member => high k (List.mem_cons_of_mem _ member)) (works.nodup nodup)
      exact ⟨r,m2,ok2,works.trans works2,steady.trans steady2,fun plenty => rich2 (rich plenty).2⟩

/-- `setupkvm` makes an address space without user pages from free pages, or takes none. -/
theorem setupkvm_spec (linked : Linked data) (nodup : (x ++ m.freelist).Nodup) : ∃ m',
    (∀ q ∉ x ++ m.freelist, m'.table q = m.table q ∧ m'.frame q = m.frame q) ∧
    (setupkvm data m = .ok (none,m') ∧ (x ++ m'.freelist).Perm (x ++ m.freelist) ∧
        ¬(m.refused = [] ∧ 512 < m.freelist.length) ∨
      ∃ d, setupkvm data m = .ok (some d,m') ∧ (pool x m' d).Perm (x ++ m.freelist) ∧ Extent m' d 0 ∧ Sealed m' d ∧
        (m.refused = [] → m'.refused = [])) := by
  unfold setupkvm
  rcases kalloc_cases m with ⟨r,none_left,starved,_⟩ | ⟨d,rest,r,free,taken,willing⟩
  · rw [none_left]
    refine ⟨{ m with refused := r },fun _ _ => ⟨rfl,rfl⟩,Or.inl ⟨rfl,List.Perm.refl _,fun rich => ?_⟩⟩
    rcases starved with refusal | empty
    · rw [rich.1] at refusal
      cases refusal
    · rw [empty] at rich
      exact absurd rich.2 (by decide)
  · rw [taken]
    dsimp only
    generalize hm1 : (({ m with freelist := rest,refused := r } : Vm).clear d) = m1
    have zero (j : Nat) : m1.table d j = Entry.zero := by
      rw [← hm1]
      simp [Vm.clear]
    have empty (i j : Nat) : m1.at d (.frame i j) = none := at_frame_none (by rw [zero]; rfl)
    have alone : holdings m1 d = [d] := holdings_clear zero
    have whole : (pool x m1 d).Perm (x ++ m.freelist) := by
      rw [pool,alone,free,← hm1]
      exact (List.perm_append_singleton d rest).append_left x
    have away (q : Page) (out : q ∉ x ++ m.freelist) : q ≠ d := by
      rintro rfl
      exact out (List.mem_append_right _ (free ▸ List.mem_cons_self))
    have still (q : Page) (out : q ∉ x ++ m.freelist) : m1.table q = m.table q ∧ m1.frame q = m.frame q := by
      rw [← hm1]
      exact ⟨Function.update_of_ne (away q out) _ _,Function.update_of_ne (away q out) _ _⟩
    have nodup1 := whole.nodup_iff.mpr nodup
    obtain ⟨done,m2,ok,works,steady,rich⟩ := setupkvmLoop_spec (kmap data) (kmap_high linked) nodup1
    have willing1 : m.refused = [] → m1.refused = [] := by
      rw [← hm1]
      exact willing
    have plenty (able : m.refused = []) (many : 512 < m.freelist.length) : Plenty d m1 := by
      refine ⟨willing1 able,?_⟩
      have length : m1.freelist.length + 1 = m.freelist.length := by
        rw [free,← hm1]
        rfl
      have most : (missing m1 d).card ≤ 512 := (Finset.card_filter_le _ _).trans (by rw [Nat.card_Ico])
      omega
    have outside (q : Page) (out : q ∉ x ++ m.freelist) : q ∉ pool x m1 d := fun h => out (whole.mem_iff.mp h)
    rw [ok]
    cases done with
    | true =>
      refine ⟨m2,fun q out => ⟨?_,?_⟩,Or.inr ⟨d,rfl,works.conserve.trans whole,fun i hi j hj => ?_,?_,?_⟩⟩
      · exact (works.table q (outside q out)).trans (still q out).1
      · exact (works.frame q (outside q out)).trans (still q out).2
      · rw [steady.frames i hi j hj,empty]
        simp
      · refine steady.sealing fun i _ _ present => ?_
        rw [zero] at present
        cases present
      · exact works.willing ∘ willing1
    | false =>
      obtain ⟨m3,freed,released⟩ := freevm_spec (works.nodup nodup1)
      have whole3 := works.release released
      dsimp only
      rw [freed]
      refine ⟨m3,fun q out => ⟨?_,?_⟩,Or.inl ⟨rfl,whole3.conserve.trans whole,fun able => ?_⟩⟩
      · exact (whole3.table q (outside q out)).trans (still q out).1
      · exact (whole3.frame q (outside q out)).trans (still q out).2
      · cases (rich (plenty able.1 able.2)).1

end kernel

section growth
variable {d : Page} {x : List Page} {m : Vm} {oldsz newsz : Nat}

/-- The pages from `oldsz` on are given back. -/
theorem shrink_spec (nodup : (pool x m d).Nodup) (limit : newsz < 2147483648) (order : oldsz < newsz) {n : Nat}
    (extent : Extent m d n) (from_ : pages oldsz ≤ n) (upto : n ≤ pages newsz) :
    ∃ r m', deallocuvm m d newsz oldsz = .ok (r,m') ∧ Works d x x m m' ∧ (Sealed m d → Sealed m' d) ∧
      Extent m' d (pages oldsz) := by
  have start : pgroundup oldsz = pages oldsz * 4096 := pgroundup_eq (by omega)
  have bound : newsz ≤ 2147483648 := by omega
  obtain ⟨m1,ok,works,sealing,frames⟩ := deallocLoop_spec bound 1048576 nodup
    (by rw [start]; omega : pgroundup oldsz % 4096 = 0) (by omega)
  unfold deallocuvm
  rw [if_neg (by omega)]
  have freed : deallocuvmLoop d newsz 1048577 m (pgroundup oldsz) = .ok m1 := ok
  rw [freed]
  refine ⟨_,_,rfl,works,sealing,fun i hi j hj => ?_⟩
  rw [frames i hi j hj,start]
  have before := extent i hi j hj
  unfold pages at from_ upto ⊢
  split
  · simp only [Option.isSome_none,Bool.false_eq_true,false_iff]
    omega
  · rw [before]
    omega

theorem page_row {n : Nat} (low : n < 524288) :
    pdx (n * 4096) < 512 ∧ pdx (n * 4096) * 1024 + ptx (n * 4096) = n := by
  unfold pdx ptx
  omega

theorem Extent.vacant {n : Nat} (extent : Extent m d n) (low : n < 524288) :
    m.at d (.frame (pdx (n * 4096)) (ptx (n * 4096))) = none := by
  have here := extent _ (page_row low).1 _ (ptx_lt (n * 4096))
  rw [(page_row low).2] at here
  simpa using here

/-- One page more is mapped. -/
theorem Extent.grow {m' : Vm} {mem : Page} {n : Nat} (extent : Extent m d n) (low : n < 524288)
    (frames : ∀ place ∈ places, (∀ i, place ≠ .table i) → m'.at d place =
      if place = .frame (pdx (n * 4096)) (ptx (n * 4096)) then some mem else m.at d place) : Extent m' d (n + 1) := by
  have row := page_row low
  have column := ptx_lt (n * 4096)
  intro i hi j hj
  rw [frames (.frame i j) (mem_frame.mpr ⟨hi,hj⟩) fun _ absurd => nomatch absurd]
  split
  · rename_i same
    obtain ⟨rfl,rfl⟩ := Place.frame.inj same
    simp only [Option.isSome_some,true_iff]
    omega
  · rename_i other
    rw [extent i hi j hj]
    have apart : i * 1024 + j ≠ n := by
      intro same
      have left : i = pdx (n * 4096) := by omega
      have right : j = ptx (n * 4096) := by omega
      exact other (by rw [left,right])
    omega

/-- A free page is cleared and mapped as the next one, or stays in hand. -/
theorem growPage_spec {mem : Page} {rest : List Page} {r : List Bool} {n : Nat} (nodup : (pool x m d).Nodup)
    (extent : Extent m d n) (low : n < 524288) (free : m.freelist = mem :: rest)
    (willing : m.refused = [] → r = []) : ∃ m', (Sealed m d → Sealed m' d) ∧
    (mappages (({ m with freelist := rest,refused := r } : Vm).clear mem) d (n * 4096) pgsize mem true true =
        .ok (false,m') ∧ Works d x (mem :: x) m m' ∧ Extent m' d n ∧ (r.head? = some true ∨ rest = []) ∨
      mappages (({ m with freelist := rest,refused := r } : Vm).clear mem) d (n * 4096) pgsize mem true true =
        .ok (true,m') ∧ Works d x x m m' ∧ Extent m' d (n + 1)) := by
  have take := kalloc_works (d := d) (x := x) free willing
  have nodup1 := take.nodup nodup
  have wipe := clear_works (p := mem) nodup1 List.mem_cons_self
  have nodup2 := wipe.nodup nodup1
  have taking : Steady d m { m with freelist := rest,refused := r } := Steady.outside fun _ _ => rfl
  have still := taking.trans (clear_outside (p := mem) nodup1 List.mem_cons_self)
  have works := take.trans wipe
  have hunger (starved : Starved (({ m with freelist := rest,refused := r } : Vm).clear mem)) :
      r.head? = some true ∨ rest = [] := starved
  generalize ({ m with freelist := rest,refused := r } : Vm).clear mem = m1 at still works nodup2 hunger ⊢
  have extent1 : Extent m1 d n := fun i hi j hj => by
    rw [still.frames i hi j hj]
    exact extent i hi j hj
  obtain ⟨m2,⟨ok,works2,steady2,starved⟩ | ⟨ok,works2,sealing2,frames2⟩⟩ :=
    mapPage_spec nodup2 (by omega : n * 4096 < 2147483648) (by omega) (extent1.vacant low)
  · refine ⟨m2,steady2.sealing ∘ still.sealing,Or.inl ⟨ok,works.trans works2,fun i hi j hj => ?_,hunger starved⟩⟩
    rw [steady2.frames i hi j hj]
    exact extent1 i hi j hj
  · exact ⟨m2,sealing2 ∘ still.sealing,Or.inr ⟨ok,works.trans works2,extent1.grow low frames2⟩⟩

theorem allocLoop_spec (limit : newsz < 2147483648) (order : oldsz ≤ newsz) (fuel : Nat) {n : Nat}
    (nodup : (pool x m d).Nodup) (extent : Extent m d n) (from_ : pages oldsz ≤ n) (upto : n ≤ pages newsz)
    (enough : newsz ≤ (n + fuel) * 4096) :
    ∃ r m', allocuvmLoop d oldsz newsz (fuel + 1) m (n * 4096) = .ok (r,m') ∧ Works d x x m m' ∧
      (Sealed m d → Sealed m' d) ∧
      (r = 0 ∧ Extent m' d (pages oldsz) ∨ r = newsz ∧ Extent m' d (pages newsz)) := by
  induction fuel generalizing m n with
  | zero =>
    unfold allocuvmLoop
    rw [if_neg (by omega)]
    have full : n = pages newsz := by
      unfold pages at upto ⊢
      omega
    exact ⟨newsz,m,rfl,Works.refl d x m,id,Or.inr ⟨rfl,full ▸ extent⟩⟩
  | succ fuel ih =>
    unfold allocuvmLoop
    rcases Nat.lt_or_ge (n * 4096) newsz with more | done
    · rw [if_pos more]
      have smaller : oldsz < newsz := by
        unfold pages at from_
        omega
      have next : u32 (n * 4096 + pgsize) = (n + 1) * 4096 := by
        have width : n * 4096 + 4096 < 4294967296 :=
          Nat.lt_of_lt_of_le (Nat.add_lt_add_right more 4096) (by omega)
        exact (u32_of_lt width).trans (Nat.succ_mul n 4096).symm
      have within_ : n + 1 ≤ pages newsz := by
        unfold pages
        omega
      have remains : n + 1 + fuel = n + (fuel + 1) := by omega
      rcases kalloc_cases m with ⟨r,none_left,_,willing⟩ | ⟨mem,rest,r,free,taken,willing⟩
      · rw [none_left]
        have same : Extent { m with refused := r } d n := extent
        obtain ⟨_,m1,ok,works,sealing,short⟩ := shrink_spec (x := x) (m := { m with refused := r }) nodup limit
          smaller same from_ upto
        dsimp only
        rw [ok]
        exact ⟨0,m1,rfl,(refused_works willing).trans works,sealing,Or.inl ⟨rfl,short⟩⟩
      · rw [taken]
        dsimp only
        obtain ⟨m1,sealing,⟨ok,works,extent1,_⟩ | ⟨ok,works,extent1⟩⟩ :=
          growPage_spec nodup extent (by omega) free willing
        · obtain ⟨_,m2,ok2,works2,sealing2,short⟩ := shrink_spec (works.nodup nodup) limit smaller extent1 from_ upto
          have nodup2 := works2.nodup (works.nodup nodup)
          have after := kfree_outside nodup2
          rw [ok]
          dsimp only
          rw [ok2]
          refine ⟨0,_,rfl,(works.trans works2).trans (kfree_works nodup2),?_,Or.inl ⟨rfl,fun i hi j hj => ?_⟩⟩
          · exact fun h => after.sealing (sealing2 (sealing h))
          · rw [after.frames i hi j hj]
            exact short i hi j hj
        · obtain ⟨r,m2,ok2,works2,sealing2,result⟩ := ih (n := n + 1) (works.nodup nodup) extent1 (by omega) within_
            (by rw [remains]; exact enough)
          rw [ok]
          dsimp only
          rw [next]
          exact ⟨r,m2,ok2,works.trans works2,sealing2 ∘ sealing,result⟩
    · rw [if_neg (by omega)]
      have full : n = pages newsz := by
        unfold pages at upto ⊢
        omega
      exact ⟨newsz,m,rfl,Works.refl d x m,id,Or.inr ⟨rfl,full ▸ extent⟩⟩

/-- `allocuvm` grows the address space to `newsz` bytes, or leaves it as it was. -/
theorem allocuvm_spec (nodup : (pool x m d).Nodup) (low : oldsz < 2147483648) (extent : Extent m d (pages oldsz))
    (newsz : Nat) : ∃ r m', allocuvm m d oldsz newsz = .ok (r,m') ∧ Works d x x m m' ∧ (Sealed m d → Sealed m' d) ∧
      ∃ s < 2147483648, Extent m' d (pages s) ∧ oldsz ≤ s ∧ (r = 0 ∨ r = s ∧ newsz ≤ s) := by
  unfold allocuvm
  split
  · exact ⟨0,m,rfl,Works.refl d x m,id,oldsz,low,extent,le_refl _,Or.inl rfl⟩
  · rename_i limit
    have limit : newsz < 2147483648 := by
      change ¬newsz ≥ 2147483648 at limit
      omega
    split
    · exact ⟨oldsz,m,rfl,Works.refl d x m,id,oldsz,low,extent,le_refl _,Or.inr ⟨rfl,by omega⟩⟩
    · obtain ⟨r,m1,ok,works,sealing,result⟩ := allocLoop_spec limit (by omega) 1048576 nodup extent (le_refl _)
        (by unfold pages; omega) (by omega)
      rw [pgroundup_eq (by omega)]
      refine ⟨r,m1,ok,works,sealing,?_⟩
      rcases result with ⟨zero,short⟩ | ⟨grown,full⟩
      · exact ⟨oldsz,low,short,le_refl _,Or.inl zero⟩
      · exact ⟨newsz,limit,full,by omega,Or.inr ⟨grown,le_refl _⟩⟩

end growth

end Lxos.Kernel
