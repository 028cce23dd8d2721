import Lxos.Kernel.Ranges

/-! The kernel's half of an address space: the entry that `setupkvm` gives to every
page, whether the four lines of `kmap` share page tables or not. -/
namespace Lxos.Kernel
open Lxos.Bytes Lxos.Fs Lxos.Outcome

/-- The kernel sees physical memory from `KERNBASE` on, its own code read-only, and the devices. -/
structure Upper (data : Nat) (m : Vm) (d : Page) : Prop where
  memory : ∀ va, kernbase ≤ va → va < kernbase + phystop →
    (translate m d va).map (fun r => r.1 * pgsize + r.2) = some (va - kernbase)
  permission : ∀ va, kernbase ≤ va → va < kernbase + phystop →
    ((m.pte d (va / pgsize)).writable = false ↔ kernlink ≤ va ∧ va < data)
  devices : ∀ va, devspace ≤ va → va < 4294967296 → (translate m d va).map (fun r => r.1 * pgsize + r.2) = some va
  nothing : ∀ va < 4294967296, va < kernbase ∨ kernbase + phystop ≤ va ∧ va < devspace → translate m d va = none
  user : ∀ n < 1048576, (m.pte d n).user = false

/-- The entry of page `n` in a fresh directory. -/
def kernelEntry (data n : Nat) : Entry :=
  if 524288 ≤ n ∧ n < 581632 then ⟨true,!decide (524544 ≤ n ∧ n < data / 4096),false,n - 524288⟩
  else if 1040384 ≤ n then ⟨true,true,false,n⟩ else .zero

section lines
variable {d : Page} {x : List Page} {m m' : Vm} {data last : Nat} {k : Kmap} {ks : List Kmap}

theorem setupkvmLoop_cons (ok : setupkvmLoop d (k :: ks) m = .ok (true,m')) : ∃ m1,
    mappages m d k.virt k.size (k.physStart / pgsize) k.writable false = .ok (true,m1) ∧
      setupkvmLoop d ks m1 = .ok (true,m') := by
  unfold setupkvmLoop at ok
  split at ok
  · cases ok
  · cases ok
  · rename_i m1 mapped
    exact ⟨m1,mapped,ok⟩

/-- One line of `kmap` gives entries to its pages. -/
theorem line_pte (k : Kmap) (first last : Nat) (nodup : (pool x m d).Nodup) (start : pgrounddown k.virt = first * 4096)
    (ends : pgrounddown (u32 (k.virt + k.size + 4294967295)) = last * 4096) (kernel : 524288 ≤ first) (order : first ≤ last)
    (top : last < 1048576) (physical : k.physStart / pgsize + (last - first) < 1048576)
    (ok : mappages m d k.virt k.size (k.physStart / pgsize) k.writable false = .ok (true,m')) :
    (pool x m' d).Nodup ∧ ∀ n < 1048576, m'.pte d n =
      if first ≤ n ∧ n ≤ last then ⟨true,k.writable,false,k.physStart / pgsize + (n - first)⟩ else m.pte d n := by
  unfold mappages at ok
  rw [start,ends] at ok
  obtain ⟨_,_,ok',works,_⟩ := mapKernel_spec (a := first * 4096) (last * 4096) k.writable 1048576 (k.physStart / pgsize) nodup
    (by omega) (by omega) (by omega) (by omega) (by omega) (by omega)
  obtain ⟨_,_,done,ok'',_,_,all,ranged⟩ := @mappagesLoop_ranged d m first last (k.physStart / pgsize) k.writable false 1048576
    (planted_of_pool nodup) order top (by omega) (by omega)
  obtain ⟨rfl,rfl⟩ := Prod.mk.inj (Except.ok.inj (ok.symm.trans ok'))
  obtain ⟨rfl,rfl⟩ := Prod.mk.inj (Except.ok.inj (ok.symm.trans ok''))
  refine ⟨works.nodup nodup,fun n low => ?_⟩
  have count := all.mp rfl
  rw [ranged n low]
  by_cases inside : first ≤ n ∧ n ≤ last
  · rw [if_pos (by omega),if_pos inside,Nat.mod_eq_of_lt (by omega)]
  · rw [if_neg (by omega),if_neg inside]

theorem entry_page (writable : Bool) {a b : Nat} (same : a = b) :
    (⟨true,writable,false,a⟩ : Entry) = ⟨true,writable,false,b⟩ := congrArg _ same

theorem kmap_pte (linked : Linked data) (nodup : (pool x m d).Nodup) (blank : ∀ n, m.pte d n = .zero)
    (ok : setupkvmLoop d (kmap data) m = .ok (true,m')) {n : Nat} (low : n < 1048576) : m'.pte d n = kernelEntry data n := by
  obtain ⟨aligned,after,inside⟩ := linked
  change 2148532224 < data at after
  change data < 2147483648 + 234881024 at inside
  obtain ⟨m1,ok1,rest⟩ := setupkvmLoop_cons ok
  obtain ⟨m2,ok2,rest⟩ := setupkvmLoop_cons rest
  obtain ⟨m3,ok3,rest⟩ := setupkvmLoop_cons rest
  obtain ⟨m4,ok4,rest⟩ := setupkvmLoop_cons rest
  obtain rfl := (Prod.mk.inj (Except.ok.inj rest)).2
  have io : pgrounddown (u32 (2147483648 + 1048576 + 4294967295)) = 524543 * 4096 := by
    unfold pgrounddown u32
    change _ / 4096 * 4096 = _
    omega
  obtain ⟨nodup1,entry1⟩ := line_pte ⟨kernbase,0,extmem,true⟩ 524288 524543 nodup rfl io
    (by omega) (by omega) (by omega) (by decide) ok1
  have start : pgrounddown kernlink = 524544 * 4096 := by decide
  have text : pgrounddown (u32 (2148532224 + (data - 2148532224) + 4294967295)) = (data / 4096 - 1) * 4096 := by
    unfold pgrounddown u32
    change _ / 4096 * 4096 = _
    omega
  have start' : pgrounddown devspace = 1040384 * 4096 := by decide
  have memory : pgrounddown (u32 (data + (234881024 - (data - 2147483648)) + 4294967295)) = 581631 * 4096 := by
    unfold pgrounddown u32
    change _ / 4096 * 4096 = _
    omega
  obtain ⟨nodup2,entry2⟩ := line_pte ⟨kernlink,kernlink - kernbase,data - kernlink,false⟩ 524544 (data / 4096 - 1) nodup1 start
    text (by omega) (by omega) (by omega) (by change 1048576 / 4096 + _ < _; omega) ok2
  obtain ⟨nodup3,entry3⟩ := line_pte ⟨data,data - kernbase,phystop - (data - kernbase),true⟩ (data / 4096) 581631 nodup2
    rfl memory (by omega) (by omega) (by omega) (by change (data - 2147483648) / 4096 + _ < _; omega) ok3
  obtain ⟨_,entry4⟩ := line_pte ⟨devspace,devspace,33554432,true⟩ 1040384 1048575 nodup3 start' rfl
    (by omega) (by omega) (by omega) (by decide) ok4
  have code : (kernlink - kernbase) / pgsize = 256 := by decide
  have segment : (data - kernbase) / pgsize = data / 4096 - 524288 := Nat.sub_mul_div data 4096 524288
  have device : devspace / pgsize = 1040384 := by decide
  rw [entry4 n low,entry3 n low,entry2 n low,entry1 n low,blank n,code,segment,device]
  unfold kernelEntry
  rcases Nat.lt_or_ge n 1040384 with under | over_
  · rw [if_neg (by omega)]
    rcases Nat.lt_or_ge n 581632 with ram | gap
    · rcases Nat.lt_or_ge n (data / 4096) with lower | upper
      · rw [if_neg (by omega)]
        rcases Nat.lt_or_ge n 524544 with io | kernel
        · rw [if_neg (by omega)]
          rcases Nat.lt_or_ge n 524288 with user | first
          · rw [if_neg (by omega),if_neg (by omega),if_neg (by omega)]
          · rw [if_pos (by omega),if_pos (by omega),decide_eq_false (by omega)]
            exact entry_page true (Nat.zero_add _)
        · rw [if_pos (by omega),if_pos (by omega),decide_eq_true (by omega)]
          exact entry_page false (by omega)
      · rw [if_pos (by omega),if_pos (by omega),decide_eq_false (by omega)]
        exact entry_page true (by omega)
    · rw [if_neg (by omega),if_neg (by omega),if_neg (by omega),if_neg (by omega),if_neg (by omega)]
  · rw [if_pos (by omega),if_neg (by omega),if_pos over_]
    exact entry_page true (by omega)

end lines

section fresh
variable {data : Nat} {m : Vm} {d : Page}

/-- The kernel's half, read off the entries. -/
theorem upper_of_pte (linked : Linked data) (entry : ∀ n < 1048576, m.pte d n = kernelEntry data n) : Upper data m d := by
  obtain ⟨aligned,after,inside⟩ := linked
  change 2148532224 < data at after
  change data < 2147483648 + 234881024 at inside
  have ram (va : Nat) (lower : 2147483648 ≤ va) (upper : va < 2147483648 + 234881024) : m.pte d (va / 4096) =
      ⟨true,!decide (524544 ≤ va / 4096 ∧ va / 4096 < data / 4096),false,va / 4096 - 524288⟩ := by
    rw [entry _ (by omega),kernelEntry,if_pos (by omega)]
  refine ⟨fun va lower upper => ?_,fun va lower upper => ?_,fun va lower upper => ?_,fun va low out => ?_,fun n low => ?_⟩
  · change 2147483648 ≤ va at lower
    change va < 2147483648 + 234881024 at upper
    rw [translate_eq (by omega),ram va lower upper,if_pos rfl]
    refine congrArg some ?_
    change (va / 4096 - 524288) * 4096 + va % 4096 = va - 2147483648
    omega
  · change 2147483648 ≤ va at lower
    change va < 2147483648 + 234881024 at upper
    change (m.pte d (va / 4096)).writable = false ↔ 2148532224 ≤ va ∧ va < data
    rw [ram va lower upper]
    simp only [Bool.not_eq_false',decide_eq_true_eq]
    omega
  · change 4261412864 ≤ va at lower
    have here : m.pte d (va / 4096) = ⟨true,true,false,va / 4096⟩ := by
      rw [entry _ (by omega),kernelEntry,if_neg (by omega),if_pos (by omega)]
    rw [translate_eq upper,here,if_pos rfl]
    refine congrArg some ?_
    change va / 4096 * 4096 + va % 4096 = va
    omega
  · change va < 2147483648 ∨ 2147483648 + 234881024 ≤ va ∧ va < 4261412864 at out
    have here : m.pte d (va / 4096) = .zero := by
      rw [entry _ (by omega),kernelEntry,if_neg (by omega),if_neg (by omega)]
    rw [translate_eq low,here]
    exact if_neg (by decide)
  · rw [entry n low,kernelEntry]
    split
    · rfl
    · split
      · rfl
      · rfl

/-- What `setupkvm` leaves: nothing taken, or the kernel's half in a directory of its own. -/
theorem setupkvm_upper (linked : Linked data) (single : m.freelist.Nodup) :
    (∃ m', setupkvm data m = .ok (none,m') ∧ m'.freelist.Perm m.freelist) ∨
      ∃ d m', setupkvm data m = .ok (some d,m') ∧ (pool [] m' d).Nodup ∧ Upper data m' d := by
  obtain ⟨m',_,⟨none_left,free,_⟩ | ⟨d,ok,whole,_⟩⟩ := setupkvm_spec (x := []) linked single
  · exact Or.inl ⟨m',none_left,free⟩
  · refine Or.inr ⟨d,m',ok,whole.nodup_iff.mpr single,upper_of_pte linked fun n low => ?_⟩
    unfold setupkvm at ok
    rcases kalloc_cases m with ⟨r,none_left,_,_⟩ | ⟨p,rest,r,free,taken,_⟩
    · rw [none_left] at ok
      cases ok
    · rw [taken] at ok
      dsimp only at ok
      generalize hm1 : (({ m with freelist := rest,refused := r } : Vm).clear p) = m1 at ok
      have zero (j : Nat) : m1.table p j = .zero := by
        rw [← hm1]
        simp [Vm.clear]
      have alone : holdings m1 p = [p] := holdings_clear zero
      have nodup : (pool [] m1 p).Nodup := by
        rw [pool,alone,← hm1,List.nil_append]
        rw [free] at single
        exact (List.perm_append_singleton p rest).nodup_iff.mpr single
      split at ok
      · cases ok
      · rename_i m2 loop
        obtain ⟨some,rfl⟩ := Prod.mk.inj (Except.ok.inj ok)
        obtain rfl := Option.some.inj some
        exact kmap_pte linked nodup (fun n => pte_absent (by rw [zero]; rfl)) loop low
      · split at ok
        · cases ok
        · cases ok

end fresh

end Lxos.Kernel
