import Lxos.Bio.Transparency

/-! Runs from `binit`. The invariant holds along them, and the cache cannot be
told from the plain disk. Past 2³² handles to one buffer, `refcnt` wraps around
and the buffer is recycled while it is held. -/
namespace Lxos.Bio
open Lxos.Bytes Lxos.Ring Lxos.Handles

/-- The list after the first `n` rounds of `binit`, the latest buffer first. -/
def bootOrder : Nat → List Node
  | 0 => []
  | n+1 => Fin.ofNat 31 n :: bootOrder n

theorem mem_bootOrder {n : Nat} (small : n ≤ 31) (b : Node) : b ∈ bootOrder n ↔ b.val < n := by
  induction n with
  | zero => simp [bootOrder]
  | succ n ih =>
    have value : (Fin.ofNat 31 n).val = n := Nat.mod_eq_of_lt (by omega)
    rw [bootOrder,List.mem_cons,ih (by omega),Fin.ext_iff,value]
    omega

theorem binitLoop_ring {links : Links Node} (empty : Represents links head []) {n : Nat} (small : n ≤ 30) :
    Represents (binitLoop links n) head (bootOrder n) := by
  induction n with
  | zero => exact empty
  | succ n ih =>
    have value : (Fin.ofNat 31 n).val = n := Nat.mod_eq_of_lt (by omega)
    refine (ih (by omega)).push ?_
    intro inside
    rcases List.mem_cons.mp inside with same | inside
    · have number := congrArg Fin.val same
      rw [value] at number
      exact absurd number (by change n ≠ 30; omega)
    · rw [mem_bootOrder (by omega),value] at inside
      exact absurd inside (Nat.lt_irrefl n)

theorem binit_ring (st : Bcache) : Represents (binit st).links head (bootOrder nbuf) := by
  refine binitLoop_ring ⟨List.nodup_singleton head,?_,?_⟩ (le_refl _)
  · exact Function.update_self head head st.links.next
  · exact Function.update_self head head st.links.prev

theorem boot_inv (disk : Nat → Nat → Fs.Block) : Inv (Client.boot disk) (bootOrder nbuf) where
  ring := binit_ring _
  all := by
    intro b
    rw [mem_bootOrder (by decide),ne_eq,Fin.ext_iff]
    change b.val < 30 ↔ ¬b.val = 30
    omega
  first := List.pairwise_of_forall (fun _ _ _ => ⟨rfl,rfl⟩)
  counts := fun _ => rfl
  held := fun _ member => absurd member List.not_mem_nil
  flags := fun _ _ => Or.inl rfl
  clean := by
    intro b _ valid
    have zero : (0 : BitVec 32) = bValid := valid
    exact absurd zero (by decide)
  unwritten := fun _ changed => absurd changed Bool.false_ne_true
  disk := rfl

namespace Client
variable {m m' : Client} {disk : Nat → Nat → Fs.Block}

/-- One allowed step goes through and keeps the invariant. -/
theorem step_inv {order : List Node} (inv : Inv m order) {op : Op} (allowed : m.Allowed op) :
    ∃ m' order', m.step op = .ok m' ∧ Inv m' order' := by
  cases op with
  | bread dev n =>
    obtain ⟨b,cache,ok,_,next⟩ := inv.bread allowed
    exact ⟨_,order,by simp only [step,ok],next⟩
  | brelse h =>
    obtain ⟨order',next⟩ := inv.brelse allowed.1
    exact ⟨_,order',rfl,next⟩
  | modify h data => exact ⟨_,order,rfl,inv.modify allowed.1 data⟩
  | bwrite h => exact ⟨_,order,rfl,inv.bwrite allowed.1⟩

theorem Reachable.inv (reachable : Reachable Allowed disk m) : ∃ order, Inv m order := by
  induction reachable with
  | boot => exact ⟨_,boot_inv disk⟩
  | step op _ allowed ok ih =>
    obtain ⟨order,inv⟩ := ih
    obtain ⟨next,order',stepped,inv'⟩ := step_inv inv allowed
    rw [ok] at stepped
    cases stepped
    exact ⟨order',inv'⟩

/-- The cache is a plain disk to its users: `bread` gives a buffer of the block
with what the last `bwrite` stored, a block is held through one buffer which
stays its own, and the list always holds the head and every buffer once. -/
theorem transparent (disk : Nat → Nat → Fs.Block) (m : Client) (reachable : Reachable Allowed disk m) :
    (∀ op, m.Allowed op → ∃ m', m.step op = .ok m') ∧
    (∀ dev n, m.Allowed (.bread dev n) → ∃ b cache, bread m.cache dev n = .ok (b,cache) ∧
      (cache.buf b).dev = dev ∧ (cache.buf b).blockno = n ∧
      (m.Settled dev n → (cache.buf b).data = m.stored dev n)) ∧
    (∀ h ∈ m.held, (m.cache.buf h.buf).dev = h.dev ∧ (m.cache.buf h.buf).blockno = h.blockno) ∧
    (∀ h ∈ m.held, ∀ g ∈ m.held, h.block = g.block ↔ h.buf = g.buf) ∧
    ∃ order, Represents m.cache.links head order ∧ ∀ b, b ∈ order ↔ b ≠ head := by
  obtain ⟨order,inv⟩ := reachable.inv
  refine ⟨?_,?_,?_,?_,order,inv.ring,inv.all⟩
  · intro op allowed
    obtain ⟨m',_,ok,_⟩ := step_inv inv allowed
    exact ⟨m',ok⟩
  · intro dev n allowed
    obtain ⟨b,cache,ok,served,next⟩ := inv.bread allowed
    obtain ⟨device,number⟩ := Prod.mk.inj served.key
    refine ⟨b,cache,ok,device,number,fun settled => served.data ?_⟩
    cases changed : m.unwritten b with
    | false => rfl
    | true =>
      obtain ⟨h,member,rfl⟩ := List.mem_map.mp (inv.unwritten b changed)
      have block := (next.held h (List.mem_cons_of_mem _ member)).2.1
      rw [settled h member (block.symm.trans served.key)] at changed
      exact absurd changed (by decide)
  · intro h member
    exact Prod.mk.inj (inv.held h member).2.1
  · intro h left g right
    obtain ⟨outside,key,_⟩ := inv.held h left
    obtain ⟨outside',key',_⟩ := inv.held g right
    constructor
    · intro same
      exact inv.same outside outside' (inv.busy (List.mem_map_of_mem left)) (inv.busy (List.mem_map_of_mem right))
        (key.trans (same.trans key'.symm))
    · intro same
      rw [← key,← key',same]

/-- Right after `binit`, block 7 is read from the disk. -/
theorem transparent_boot : ∃ b cache, bread (boot fun _ n => fun _ => BitVec.ofNat 8 n).cache 1 7 = .ok (b,cache) ∧
    (cache.buf b).data 0 = 7 := by
  have law := transparent (fun _ n => fun _ => BitVec.ofNat 8 n) _ .boot
  obtain ⟨b,cache,ok,_,_,data⟩ := law.2.1 1 7 ⟨Nat.le_of_ble_eq_true rfl,by decide⟩
  have settled : Settled (boot fun _ n => fun _ => BitVec.ofNat 8 n) 1 7 :=
    fun _ member => absurd member List.not_mem_nil
  exact ⟨b,cache,ok,by rw [data settled]; rfl⟩

/-- Buffer 0 with `n` handles for block 5, all of zeros. -/
def hoardBuf (n : Nat) : Buf := ⟨bValid,1,5,BitVec.ofNat 32 n,zeros⟩

/-- After `n` uses of `bread(1, 5)` none of which was released. -/
def hoard (n : Nat) : Client where
  cache := (boot fun _ _ => zeros).cache.setBuf 0 (hoardBuf n)
  held := List.replicate n ⟨0,1,5⟩
  unwritten := fun _ => false
  stored := fun _ _ => zeros

theorem hoard_set (n : Nat) (v : Buf) :
    (hoard n).cache.setBuf 0 v = (boot fun _ _ => zeros).cache.setBuf 0 v := by
  unfold hoard Bcache.setBuf
  rw [Function.update_idem]

theorem hoard_scan (st : Bcache) (links : st.links = (boot fun _ _ => zeros).cache.links) (p : Node → Bool) :
    scan st.links.next head p (nbuf+1) (st.links.next head) = some ((bootOrder nbuf).find? p) ∧
      scan st.links.prev head p (nbuf+1) (st.links.prev head) = some ((bootOrder nbuf).reverse.find? p) := by
  rw [links]
  have ring := (boot_inv fun _ _ => zeros).ring
  have outside := (List.nodup_cons.mp ring.nodup).1
  exact ⟨scan_path ring.forward outside (by decide),
    scan_path ring.backward (fun inside => outside (List.mem_reverse.mp inside)) (by decide)⟩

theorem hoard_first : (boot fun _ _ => zeros).step (.bread 1 5) = .ok (hoard 1) := by
  have scans := hoard_scan (boot fun _ _ => zeros).cache rfl
  have cached : (bootOrder nbuf).find? (fun b => ((boot fun _ _ => zeros).cache.buf b).dev == 1 &&
      ((boot fun _ _ => zeros).cache.buf b).blockno == 5) = none := rfl
  have unused : (bootOrder nbuf).reverse.find? (fun b => ((boot fun _ _ => zeros).cache.buf b).refcnt == 0 &&
      ((boot fun _ _ => zeros).cache.buf b).flags &&& bDirty == 0) = some 0 := rfl
  simp only [step,bread,bget,(scans _).1,cached,(scans _).2,unused]
  rw [load_eq (by rw [setBuf_same]; exact Or.inl rfl),setBuf_same,setBuf_disk]
  unfold Bcache.setBuf
  rw [Function.update_idem]
  rfl

theorem hoard_next (n : Nat) : (hoard n).step (.bread 1 5) = .ok (hoard (n+1)) := by
  have scans := hoard_scan (hoard n).cache rfl
  have cached : (bootOrder nbuf).find? (fun b => ((hoard n).cache.buf b).dev == 1 &&
      ((hoard n).cache.buf b).blockno == 5) = some 0 := rfl
  have count : BitVec.ofNat 32 (n+1) = BitVec.ofNat 32 n + 1 := BitVec.ofNat_add n 1
  have value : ({ (hoard n).cache.buf 0 with refcnt := ((hoard n).cache.buf 0).refcnt + 1 } : Buf) =
      hoardBuf (n+1) := by
    rw [hoardBuf,count]
    rfl
  have loaded : (hoardBuf (n+1)).loaded (boot fun _ _ => zeros).cache.disk = hoardBuf (n+1) := rfl
  simp only [step,bread,bget,(scans _).1,cached]
  rw [value,hoard_set,load_eq (by rw [setBuf_same]; exact Or.inr rfl),setBuf_same,setBuf_disk,loaded]
  unfold Bcache.setBuf
  rw [Function.update_idem]
  rfl

theorem hoard_few (n k : Nat) : (hoard n).Disciplined (.bread 1 k) := by
  have blocks : insert (1,k) ((hoard n).held.map Handle.block).toFinset ⊆ {(1,k),(1,5)} := by
    refine Finset.insert_subset (Finset.mem_insert_self _ _) ?_
    intro block member
    obtain ⟨h,inside,rfl⟩ := List.mem_map.mp (List.mem_toFinset.mp member)
    rw [List.eq_of_mem_replicate inside]
    exact Finset.mem_insert_of_mem (Finset.mem_singleton_self _)
  exact (Finset.card_le_card blocks).trans (Finset.card_le_two.trans (by decide))

theorem hoard_reachable (n : Nat) : Reachable Disciplined (fun _ _ => zeros) (hoard (n+1)) := by
  induction n with
  | zero => exact .step (.bread 1 5) .boot (hoard_few 0 5) hoard_first
  | succ n ih => exact .step (.bread 1 5) ih (hoard_few (n+1) 5) (hoard_next (n+1))

/-- With the count at zero, the buffer is the first that `bget` finds unused. -/
theorem hoard_lost {n : Nat} (wrap : BitVec.ofNat 32 n = 0) : ∃ cache, bread (hoard n).cache 1 6 = .ok (0,cache) ∧
    (cache.buf 0).blockno = 6 := by
  have scans := hoard_scan (hoard n).cache rfl
  have cached : (bootOrder nbuf).find? (fun b => ((hoard n).cache.buf b).dev == 1 &&
      ((hoard n).cache.buf b).blockno == 6) = none := rfl
  have zero : ((hoard n).cache.buf 0).refcnt = 0 := wrap
  have unused : (bootOrder nbuf).reverse.find? (fun b => ((hoard n).cache.buf b).refcnt == 0 &&
      ((hoard n).cache.buf b).flags &&& bDirty == 0) = some 0 := by
    have order : (bootOrder nbuf).reverse = 0 :: (bootOrder nbuf).reverse.tail := rfl
    rw [order]
    refine List.find?_cons_of_pos ?_
    have flags : ((hoard n).cache.buf 0).flags = bValid := rfl
    rw [zero,flags]
    decide
  simp only [bread,bget,(scans _).1,cached,(scans _).2,unused]
  rw [load_eq (by rw [setBuf_same]; exact Or.inl rfl),setBuf_same]
  refine ⟨_,rfl,?_⟩
  rw [setBuf_same]
  rfl

/-- Holding one buffer through 2³² handles and then reading block 6 gives that
buffer away: a handle to block 5 shows another block. -/
theorem hoard_recycled : ∃ m, Reachable Disciplined (fun _ _ => zeros) m ∧
    ∃ h ∈ m.held, (m.cache.buf h.buf).blockno ≠ h.blockno := by
  have reachable := hoard_reachable 4294967295
  obtain ⟨cache,ok,number⟩ := @hoard_lost 4294967296 rfl
  refine ⟨_,.step (.bread 1 6) reachable (hoard_few 4294967296 6) (by simp only [step]; rw [ok]),
    ⟨0,1,5⟩,List.mem_cons_of_mem _ ?_,?_⟩
  · exact List.mem_replicate.mpr ⟨by decide,rfl⟩
  · change (cache.buf 0).blockno ≠ 5
    rw [number]
    decide

end Client
end Lxos.Bio
