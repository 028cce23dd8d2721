import Lxos.Bio.Client

/-! The cache is transparent: every allowed step succeeds and keeps the invariant,
so that a buffer shows what the plain disk holds for its block. -/
namespace Lxos.Bio
open Lxos.Bytes Lxos.Ring Lxos.Handles
variable {m : Client} {order xs ys : List Node} {b : Node} {dev n : Nat}

/-- A buffer after `bread` made sure that it is valid. -/
def Buf.loaded (v : Buf) (disk : Nat → Nat → Fs.Block) : Buf :=
  { v with flags := bValid,data := if v.flags = 0 then disk v.dev v.blockno else v.data }

theorem load_eq {st : Bcache} (flags : (st.buf b).flags = 0 ∨ (st.buf b).flags = bValid) :
    (if (st.buf b).flags &&& bValid = 0 then iderw st b else st) =
      st.setBuf b ((st.buf b).loaded st.disk) := by
  rcases flags with zero | valid
  · simp [iderw,Buf.loaded,zero]
  · have same : (st.buf b).loaded st.disk = st.buf b := by
      have some : (st.buf b).flags ≠ 0 := by
        rw [valid]
        decide
      exact Buf.ext valid.symm rfl rfl rfl (if_neg some)
    rw [valid,if_neg (by decide),same]
    unfold Bcache.setBuf
    rw [Function.update_eq_self]

theorem Inv.member (inv : Inv m order) (inside : b ≠ head) : ∃ xs ys, order = xs ++ b :: ys :=
  List.append_of_mem ((inv.all b).mpr inside)

theorem Inv.nodup (inv : Inv m order) : order.Nodup := (List.nodup_cons.mp inv.ring.nodup).2

theorem Inv.busy (inv : Inv m order) (held : b ∈ m.held.map Handle.buf) : ¬(m.cache.buf b).Idle := by
  rintro ⟨zero,_⟩
  have positive := inv.counts.positive.mpr held
  rw [zero] at positive
  exact absurd positive (by decide)

theorem Inv.handle (inv : Inv m order) (held : b ∈ m.held.map Handle.buf) :
    b ≠ head ∧ (m.cache.buf b).flags = bValid := by
  obtain ⟨h,inside,rfl⟩ := List.mem_map.mp held
  exact ⟨(inv.held h inside).1,(inv.held h inside).2.2⟩

/-- Used buffers for one block are one buffer. -/
theorem Inv.same (inv : Inv m order) {c : Node} (left : b ≠ head) (right : c ≠ head)
    (busy : ¬(m.cache.buf b).Idle) (busy' : ¬(m.cache.buf c).Idle)
    (key : (m.cache.buf b).key = (m.cache.buf c).key) : b = c := by
  obtain ⟨xs,ys,split⟩ := inv.member left
  have first := inv.first
  rw [split] at first
  obtain ⟨before,after⟩ := first.used busy
  have inside := (inv.all c).mpr right
  rw [split] at inside
  rcases List.mem_append.mp inside with early | late
  · exact absurd key.symm (before c early)
  · rcases List.mem_cons.mp late with same | late
    · exact same.symm
    · exact absurd (after c late key) busy'

/-- The buffer given out by `bread`. -/
theorem Inv.take (inv : Inv m (xs ++ b :: ys)) {v : Buf} (key : v.key = (dev,n)) (flags : v.flags = bValid)
    (refcnt : (v.refcnt.toNat : Int) = (m.cache.buf b).refcnt.toNat + 1)
    (data : m.unwritten b = false → v.data = m.stored dev n)
    (before : ∀ a ∈ xs, (m.cache.buf a).key ≠ (dev,n))
    (after : ∀ c ∈ ys, (dev,n) = (m.cache.buf c).key → (m.cache.buf c).Idle)
    (keep : ∀ h ∈ m.held, h.buf = b → h.block = (dev,n)) :
    Inv { m with cache := m.cache.setBuf b v,held := ⟨b,dev,n⟩ :: m.held } (xs ++ b :: ys) := by
  have inside : b ≠ head := (inv.all b).mp (List.mem_append_right xs List.mem_cons_self)
  refine ⟨inv.ring,inv.all,?_,?_,?_,?_,?_,?_,inv.disk⟩
  · refine inv.first.touch inv.nodup (fun s h => setBuf_other _ _ _ _ h) ?_ ?_
    · rw [setBuf_same,key]
      exact before
    · rw [setBuf_same,key]
      exact after
  · rw [List.map_cons]
    refine inv.counts.add ?_ ?_
    · simp only [setBuf_same]
      exact refcnt
    · intro c other
      simp only [setBuf_other _ _ _ _ other]
  · intro h member
    rcases List.mem_cons.mp member with rfl | member
    · simp only [setBuf_same]
      exact ⟨inside,key,flags⟩
    · obtain ⟨outside,block,valid⟩ := inv.held h member
      by_cases here : h.buf = b
      · simp only [here,setBuf_same]
        exact ⟨inside,key.trans (keep h member here).symm,flags⟩
      · simp only [setBuf_other _ _ _ _ here]
        exact ⟨outside,block,valid⟩
  · intro c other
    by_cases here : c = b
    · subst c
      simp only [setBuf_same]
      exact Or.inr flags
    · simp only [setBuf_other _ _ _ _ here]
      exact inv.flags c other
  · intro c other
    by_cases here : c = b
    · subst c
      obtain ⟨hd,hn⟩ := Prod.mk.inj key
      simp only [setBuf_same,hd,hn]
      exact fun _ => data
    · simp only [setBuf_other _ _ _ _ here]
      exact inv.clean c other
  · intro c changed
    exact List.mem_cons_of_mem b (inv.unwritten c changed)

/-- What `bread` returns. -/
structure Served (m : Client) (dev n : Nat) (b : Node) (cache : Bcache) : Prop where
  buffer : b ≠ head
  key : (cache.buf b).key = (dev,n)
  data : m.unwritten b = false → (cache.buf b).data = m.stored dev n

theorem cached_key (st : Bcache) (a : Node) :
    ((st.buf a).dev == dev && (st.buf a).blockno == n) = true ↔ (st.buf a).key = (dev,n) := by
  rw [Bool.and_eq_true,beq_iff_eq,beq_iff_eq]
  exact Prod.mk_inj.symm

theorem refcnt_next {x : BitVec 32} (room : x.toNat + 1 < 4294967296) : (x + 1).toNat = x.toNat + 1 := by
  have one : (1 : BitVec 32).toNat = 1 := rfl
  rw [BitVec.toNat_add,one]
  omega

section scans
variable (inv : Inv m order)
include inv

theorem Inv.length : order.length ≤ 30 := by
  have short : (head :: order).toFinset.card ≤ 31 := Finset.card_le_univ _
  rw [List.toFinset_card_of_nodup inv.ring.nodup,List.length_cons] at short
  omega

theorem Inv.scan_next (p : Node → Bool) :
    scan m.cache.links.next head p (nbuf+1) (m.cache.links.next head) = some (order.find? p) :=
  scan_path inv.ring.forward (List.nodup_cons.mp inv.ring.nodup).1 (Nat.lt_succ_of_le inv.length)

theorem Inv.scan_prev (p : Node → Bool) :
    scan m.cache.links.prev head p (nbuf+1) (m.cache.links.prev head) = some (order.reverse.find? p) := by
  refine scan_path inv.ring.backward ?_ ?_
  · rw [List.mem_reverse]
    exact (List.nodup_cons.mp inv.ring.nodup).1
  · rw [List.length_reverse]
    exact Nat.lt_succ_of_le inv.length

/-- A cached block is found, and its buffer has room for one more handle. -/
theorem Inv.hit (few : (m.held.map Handle.block).count (dev,n) + 1 < 4294967296)
    (found : order.find? (fun a => (m.cache.buf a).dev == dev && (m.cache.buf a).blockno == n) = some b) :
    ∃ cache, bread m.cache dev n = .ok (b,cache) ∧ Served m dev n b cache ∧
      Inv { m with cache := cache,held := ⟨b,dev,n⟩ :: m.held } order := by
  have match_ := List.find?_some found
  obtain ⟨_,xs,ys,split,earlier⟩ := List.find?_eq_some_iff_append.mp found
  have key := (cached_key m.cache b).mp match_
  have inside : b ≠ head := (inv.all b).mp (by rw [split]; exact List.mem_append_right xs List.mem_cons_self)
  have first := inv.first
  have block (h : Handle) (member : h ∈ m.held) (here : h.buf = b) : h.block = (dev,n) := by
    have old := (inv.held h member).2.1
    rw [here,key] at old
    exact old.symm
  have fewer : (m.held.map Handle.buf).count b ≤ (m.held.map Handle.block).count (dev,n) := by
    rw [List.count_eq_countP,List.count_eq_countP,List.countP_map,List.countP_map]
    apply List.countP_mono_left
    intro h member here
    exact beq_iff_eq.mpr (block h member (beq_iff_eq.mp here))
  have count : ((m.cache.buf b).refcnt.toNat : Int) = (m.held.map Handle.buf).count b := inv.counts b
  have next := @refcnt_next (m.cache.buf b).refcnt (by omega)
  have flags := inv.flags b inside
  have data : m.unwritten b = false →
      ({ m.cache.buf b with refcnt := (m.cache.buf b).refcnt + 1 }.loaded m.cache.disk).data = m.stored dev n := by
    intro settled
    obtain ⟨hd,hn⟩ := Prod.mk.inj key
    rcases flags with zero | valid
    · simp only [Buf.loaded,zero,if_true,hd,hn,inv.disk]
    · have some : ¬(m.cache.buf b).flags = 0 := by
        rw [valid]
        decide
      have clean := inv.clean b inside valid settled
      rw [hd,hn] at clean
      exact (if_neg some).trans clean
  refine ⟨m.cache.setBuf b ({ m.cache.buf b with refcnt := (m.cache.buf b).refcnt + 1 }.loaded m.cache.disk),
    ?_,⟨inside,?_,?_⟩,?_⟩
  · unfold bread bget
    simp only [inv.scan_next,found]
    rw [load_eq (by rw [setBuf_same]; exact flags),setBuf_same,setBuf_disk]
    unfold Bcache.setBuf
    rw [Function.update_idem]
  · rw [setBuf_same]
    exact key
  · rw [setBuf_same]
    exact data
  · rw [split] at inv first ⊢
    refine inv.take key rfl ?_ data ?_ ?_ block
    · change ((((m.cache.buf b).refcnt + 1).toNat : Nat) : Int) = _
      omega
    · intro a early same
      have other := earlier a early
      rw [(cached_key m.cache a).mpr same] at other
      exact absurd other (by decide)
    · intro c late same
      exact (List.pairwise_cons.mp (List.pairwise_append.mp first).2.1).1 c late (key.trans same)

/-- Some buffer is unused if fewer than `nbuf` blocks are held. -/
theorem Inv.spare (room : (m.held.map Handle.block).toFinset.card < nbuf) :
    ∃ b, b ≠ head ∧ b ∉ m.held.map Handle.buf := by
  have blocks : (m.held.map Handle.buf).toFinset.image (fun b => (m.cache.buf b).key) =
      (m.held.map Handle.block).toFinset := by
    ext k
    simp only [Finset.mem_image,List.mem_toFinset,List.mem_map]
    constructor
    · rintro ⟨_,⟨h,member,rfl⟩,rfl⟩
      exact ⟨h,member,(inv.held h member).2.1.symm⟩
    · rintro ⟨h,member,rfl⟩
      exact ⟨h.buf,⟨h,member,rfl⟩,(inv.held h member).2.1⟩
  have injective : Set.InjOn (fun b => (m.cache.buf b).key) (m.held.map Handle.buf).toFinset := by
    intro b left c right key
    have hb := List.mem_toFinset.mp left
    have hc := List.mem_toFinset.mp right
    exact inv.same (inv.handle hb).1 (inv.handle hc).1 (inv.busy hb) (inv.busy hc) key
  have count := Finset.card_image_of_injOn injective
  rw [blocks] at count
  have fewer : (m.held.map Handle.buf).toFinset.card < (Finset.univ.erase head).card := by
    rw [← count,Finset.card_erase_of_mem (Finset.mem_univ _),Finset.card_univ,Fintype.card_fin]
    exact room
  obtain ⟨b,member,absent⟩ := Finset.exists_mem_notMem_of_card_lt_card fewer
  exact ⟨b,Finset.ne_of_mem_erase member,fun inside => absent (List.mem_toFinset.mpr inside)⟩

/-- A block that is not cached takes the least recently used buffer that is free. -/
theorem Inv.miss (room : (insert (dev,n) (m.held.map Handle.block).toFinset).card ≤ nbuf)
    (absent : order.find? (fun a => (m.cache.buf a).dev == dev && (m.cache.buf a).blockno == n) = none) :
    ∃ b cache, bread m.cache dev n = .ok (b,cache) ∧ Served m dev n b cache ∧
      Inv { m with cache := cache,held := ⟨b,dev,n⟩ :: m.held } order := by
  have away (a : Node) (inside : a ∈ order) : (m.cache.buf a).key ≠ (dev,n) := by
    intro key
    exact List.find?_eq_none.mp absent a inside ((cached_key m.cache a).mpr key)
  have unheld : (dev,n) ∉ (m.held.map Handle.block).toFinset := by
    intro inside
    obtain ⟨h,member,block⟩ := List.mem_map.mp (List.mem_toFinset.mp inside)
    obtain ⟨buffer,key,_⟩ := inv.held h member
    exact away h.buf ((inv.all _).mpr buffer) (key.trans block)
  rw [Finset.card_insert_of_notMem unheld] at room
  obtain ⟨s,buffer,spare⟩ := inv.spare room
  have free (a : Node) : (m.cache.buf a).refcnt = 0 ↔ a ∉ m.held.map Handle.buf := by
    have positive := @Counts.positive _ _ _ _ a inv.counts
    constructor
    · intro zero inside
      have := positive.mpr inside
      rw [zero] at this
      exact absurd this (by decide)
    · intro outside
      apply BitVec.eq_of_toNat_eq
      change (m.cache.buf a).refcnt.toNat = 0
      by_contra more
      exact outside (positive.mp (by omega))
  cases found : order.reverse.find?
      (fun a => (m.cache.buf a).refcnt == 0 && (m.cache.buf a).flags &&& bDirty == 0) with
  | none =>
    have refused := List.find?_eq_none.mp found s (List.mem_reverse.mpr ((inv.all s).mpr buffer))
    rcases inv.flags s buffer with flags | flags
    · simp [(free s).mpr spare,flags] at refused
    · simp [(free s).mpr spare,flags] at refused
  | some b =>
    have test := List.find?_some found
    rw [Bool.and_eq_true,beq_iff_eq,beq_iff_eq] at test
    have member := List.mem_reverse.mp (List.mem_of_find?_eq_some found)
    have inside := (inv.all b).mp member
    have unused := (free b).mp test.1
    obtain ⟨xs,ys,split⟩ := inv.member inside
    refine ⟨b,m.cache.setBuf b ({ m.cache.buf b with dev := dev,blockno := n,flags := 0,refcnt := 1 }.loaded
      m.cache.disk),?_,⟨inside,?_,?_⟩,?_⟩
    · unfold bread bget
      simp only [inv.scan_next,absent,inv.scan_prev,found]
      rw [load_eq (by rw [setBuf_same]; exact Or.inl rfl),setBuf_same,setBuf_disk]
      unfold Bcache.setBuf
      rw [Function.update_idem]
    · rw [setBuf_same]
      rfl
    · rw [setBuf_same]
      intro _
      simp only [Buf.loaded,if_true,inv.disk]
    · rw [split] at inv away ⊢
      refine inv.take rfl rfl ?_ ?_ ?_ ?_ ?_
      · rw [test.1]
        rfl
      · intro _
        simp only [Buf.loaded,if_true,inv.disk]
      · exact fun a early => away a (List.mem_append_left _ early)
      · intro c late key
        exact absurd key.symm (away c (List.mem_append_right xs (List.mem_cons_of_mem b late)))
      · intro h held here
        exact absurd (List.mem_map.mpr ⟨h,held,here⟩) unused

end scans

/-- `bread` of any block that the discipline allows. -/
theorem Inv.bread (inv : Inv m order) (allowed : m.Allowed (.bread dev n)) :
    ∃ b cache, Bio.bread m.cache dev n = .ok (b,cache) ∧ Served m dev n b cache ∧
      Inv { m with cache := cache,held := ⟨b,dev,n⟩ :: m.held } order := by
  cases found : order.find? (fun a => (m.cache.buf a).dev == dev && (m.cache.buf a).blockno == n) with
  | none => exact inv.miss allowed.1 found
  | some b => exact ⟨b,inv.hit allowed.2 found⟩

section writes
variable {h : Handle}

/-- A held buffer changes in its data or count; nothing else in the cache does. -/
theorem Inv.rewrite (inv : Inv m order) {m' : Client} {v : Buf} (held : h ∈ m.held)
    (buf : m'.cache.buf = Function.update m.cache.buf h.buf v) (links : m'.cache.links = m.cache.links)
    (key : v.key = (m.cache.buf h.buf).key) (flags : v.flags = bValid)
    (counts : Counts (fun b => ((m'.cache.buf b).refcnt.toNat : Int)) (m'.held.map Handle.buf))
    (sub : ∀ g ∈ m'.held, g ∈ m.held)
    (clean : ∀ b, b ≠ head → (m'.cache.buf b).flags = bValid → m'.unwritten b = false →
      (m'.cache.buf b).data = m'.stored (m'.cache.buf b).dev (m'.cache.buf b).blockno)
    (unwritten : ∀ b, m'.unwritten b = true → b ∈ m'.held.map Handle.buf)
    (disk : m'.cache.disk = m'.stored) : Inv m' order := by
  have inside := (inv.held h held).1
  have busy := inv.busy (List.mem_map_of_mem held)
  obtain ⟨xs,ys,split⟩ := inv.member inside
  have here : m'.cache.buf h.buf = v := by rw [buf,Function.update_self]
  have other (s : Node) (distinct : s ≠ h.buf) : m'.cache.buf s = m.cache.buf s := by
    rw [buf,Function.update_of_ne distinct]
  refine ⟨by rw [links]; exact inv.ring,inv.all,?_,counts,?_,?_,clean,unwritten,disk⟩
  · have first := inv.first
    have nodup := inv.nodup
    rw [split] at first nodup ⊢
    obtain ⟨before,after⟩ := first.used busy
    refine first.touch nodup other ?_ ?_
    · rw [here,key]
      exact before
    · rw [here,key]
      exact after
  · intro g member
    obtain ⟨outside,block,valid⟩ := inv.held g (sub g member)
    by_cases same : g.buf = h.buf
    · rw [same,here]
      exact ⟨inside,key.trans (same ▸ block),flags⟩
    · rw [other _ same]
      exact ⟨outside,block,valid⟩
  · intro b distinct
    by_cases same : b = h.buf
    · rw [same,here]
      exact Or.inr flags
    · rw [other _ same]
      exact inv.flags b distinct

theorem Inv.modify (inv : Inv m order) (held : h ∈ m.held) (data : Fs.Block) :
    Inv { m with
      cache := m.cache.setBuf h.buf { m.cache.buf h.buf with data := data }
      unwritten := Function.update m.unwritten h.buf true } order := by
  obtain ⟨_,_,valid⟩ := inv.held h held
  refine inv.rewrite held rfl rfl rfl valid ?_ (fun _ member => member) ?_ ?_ inv.disk
  · refine inv.counts.congr ?_
    intro s
    by_cases here : s = h.buf
    · rw [here,setBuf_same]
    · rw [setBuf_other _ _ _ _ here]
  · intro b distinct
    by_cases here : b = h.buf
    · simp only [here,Function.update_self]
      intro _ written
      exact absurd written (by decide)
    · simp only [setBuf_other _ _ _ _ here,Function.update_of_ne here]
      exact inv.clean b distinct
  · intro b changed
    dsimp only at changed
    by_cases here : b = h.buf
    · rw [here]
      exact List.mem_map_of_mem held
    · rw [Function.update_of_ne here] at changed
      exact inv.unwritten b changed

/-- The cache after `bwrite`: the disk took the data, the buffer is valid as before. -/
theorem bwrite_eq {st : Bcache} (valid : (st.buf b).flags = bValid) : bwrite st b =
    { st with disk := fun d n => if d = (st.buf b).dev ∧ n = (st.buf b).blockno then (st.buf b).data
      else st.disk d n } := by
  have dirty : ¬(bValid ||| bDirty) &&& bDirty = 0 := by decide
  have flags : ((bValid ||| bDirty) ||| bValid) &&& ~~~bDirty = bValid := by decide
  simp only [bwrite,iderw,setBuf_same,valid,if_neg dirty,flags]
  have same : { st.buf b with flags := bValid } = st.buf b := Buf.ext valid.symm rfl rfl rfl rfl
  unfold Bcache.setBuf
  simp only [Function.update_idem,same,Function.update_eq_self]

theorem Inv.bwrite (inv : Inv m order) (held : h ∈ m.held) :
    Inv { m with
      cache := bwrite m.cache h.buf
      unwritten := Function.update m.unwritten h.buf false
      stored := fun d n => if d = h.dev ∧ n = h.blockno then (m.cache.buf h.buf).data else m.stored d n }
      order := by
  obtain ⟨inside,key,valid⟩ := inv.held h held
  obtain ⟨hd,hn⟩ := Prod.mk.inj key
  rw [bwrite_eq valid,hd,hn,inv.disk]
  refine @Inv.rewrite m order h inv _ (m.cache.buf h.buf) held (Function.update_eq_self _ _).symm rfl rfl valid
    inv.counts (fun _ member => member) ?_ ?_ rfl
  · intro b distinct flags
    by_cases here : b = h.buf
    · dsimp only
      rw [here,hd,hn]
      exact fun _ => (if_pos ⟨rfl,rfl⟩).symm
    · dsimp only
      rw [Function.update_of_ne here]
      intro written
      refine (inv.clean b distinct flags written).trans (if_neg ?_).symm
      rintro ⟨device,number⟩
      have used : ¬(m.cache.buf b).Idle := fun idle => absurd (idle.2.symm.trans flags) (by decide)
      have equal : (m.cache.buf b).key = (m.cache.buf h.buf).key := by
        rw [key]
        exact Prod.ext device number
      exact here (inv.same distinct inside used (inv.busy (List.mem_map_of_mem held)) equal)
  · intro b changed
    dsimp only at changed
    by_cases here : b = h.buf
    · rw [here]
      exact List.mem_map_of_mem held
    · rw [Function.update_of_ne here] at changed
      exact inv.unwritten b changed

/-- A handle is given back; the buffer moves to the front with its last one. -/
theorem Inv.brelse (inv : Inv m order) (allowed : m.Disciplined (.brelse h)) :
    ∃ order', Inv { m with cache := Bio.brelse m.cache h.buf,held := m.held.erase h } order' := by
  obtain ⟨held,written⟩ := allowed
  obtain ⟨inside,_,valid⟩ := inv.held h held
  have busy := inv.busy (List.mem_map_of_mem held)
  have perm : (m.held.map Handle.buf).Perm (h.buf :: (m.held.erase h).map Handle.buf) :=
    (List.perm_cons_erase held).map Handle.buf
  have positive := inv.counts.positive.mpr (List.mem_map_of_mem held)
  have one : (1 : BitVec 32).toNat = 1 := rfl
  have next : (((m.cache.buf h.buf).refcnt - 1).toNat : Int) = (m.cache.buf h.buf).refcnt.toNat - 1 := by
    rw [BitVec.toNat_sub,one]
    omega
  have middle : Inv { m with
      cache := m.cache.setBuf h.buf { m.cache.buf h.buf with refcnt := (m.cache.buf h.buf).refcnt - 1 }
      held := m.held.erase h } order := by
    refine inv.rewrite held rfl rfl rfl valid ?_ (fun _ member => List.mem_of_mem_erase member) ?_ ?_ inv.disk
    · refine (inv.counts.perm perm).drop ?_ ?_
      · simp only [setBuf_same]
        exact next
      · intro s other
        simp only [setBuf_other _ _ _ _ other]
    · intro b distinct
      by_cases here : b = h.buf
      · rw [here,setBuf_same]
        exact inv.clean _ inside
      · rw [setBuf_other _ _ _ _ here]
        exact inv.clean b distinct
    · intro b changed
      have member := perm.mem_iff.mp (inv.unwritten b changed)
      rcases List.mem_cons.mp member with rfl | member
      · have more := written changed
        rw [perm.count_eq,List.count_cons_self] at more
        exact List.count_pos_iff.mp (Nat.lt_of_succ_lt_succ more)
      · exact member
  unfold Bio.brelse
  dsimp only
  rw [setBuf_same]
  by_cases last : (m.cache.buf h.buf).refcnt - 1 = 0
  · rw [if_pos last]
    obtain ⟨xs,ys,split⟩ := inv.member inside
    obtain ⟨ring,all,first,counts,keys,flags,clean,changed,disk⟩ := middle
    have nodup := inv.ring.nodup
    rw [split] at ring first all nodup
    have absent : h.buf ∉ head :: (xs ++ ys) := by
      have moved : (head :: (xs ++ h.buf :: ys)).Perm (h.buf :: head :: (xs ++ ys)) :=
        (List.Perm.cons head List.perm_middle).trans (List.Perm.swap _ _ _)
      exact (List.nodup_cons.mp (moved.nodup_iff.mp nodup)).1
    have idle : ¬({ m.cache.buf h.buf with refcnt := (m.cache.buf h.buf).refcnt - 1 } : Buf).Idle := by
      rintro ⟨_,zero⟩
      exact absurd (zero.symm.trans valid) (by decide)
    refine ⟨h.buf :: (xs ++ ys),ring.unlink.push absent,?_,first.front ?_,counts,keys,flags,clean,changed,disk⟩
    · intro b
      rw [← all b]
      exact List.perm_middle.symm.mem_iff
    · simp only [setBuf_same]
      exact idle
  · rw [if_neg last]
    exact ⟨order,middle⟩

end writes

end Lxos.Bio
