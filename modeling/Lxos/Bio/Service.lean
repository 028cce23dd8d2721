import Lxos.Bio.Runs
import Lxos.Fs.Log

/-! The buffer cache serves the requests that `fs.c` logs. A nested log goes through
while there is room for what it pins, gives back all it took, and leaves on the disk
what the log says. -/
namespace Lxos.Bio
open Lxos.Bytes Lxos.Handles Lxos.Nesting Lxos.Fs

namespace Client

def handle (m : Client) (dev n : Nat) : Option Handle := m.held.find? (fun h => h.block == (dev,n))

/-- A request of the file system, made through the handle that is held for the block. -/
def request (m : Client) : Event → Except Fault Client
  | .bread dev n => m.step (.bread dev n)
  | .bwrite dev n data =>
    match m.handle dev n with
    | none => .error .nullBuffer
    | some h =>
      match m.step (.modify h data) with
      | .error e => .error e
      | .ok m => m.step (.bwrite h)
  | .brelse dev n =>
    match m.handle dev n with
    | none => .error .nullBuffer
    | some h => m.step (.brelse h)
  | .print _ => .ok m
  | .itrunc _ _ => .ok m

/-- A log of requests, latest first. -/
def serve (m : Client) : List Event → Except Fault Client
  | [] => .ok m
  | e :: es =>
    match serve m es with
    | .error e => .error e
    | .ok m => m.request e

theorem serve_append {m m' : Client} {es fs : List Event} (ok : m.serve es = .ok m') :
    m.serve (fs ++ es) = m'.serve fs := by
  induction fs with
  | nil => exact ok
  | cons f fs ih =>
    rw [List.cons_append,serve,ih]
    rfl

end Client

/-- Between requests: nothing is modified and not yet written, and the disk is the plain one. -/
structure Idle (m : Client) (disk : Nat → Nat → Block) : Prop where
  inv : ∃ order, Inv m order
  written : ∀ b, m.unwritten b = false
  stored : m.stored = disk

section requests
variable {m : Client} {disk : Nat → Nat → Block} {dev n : Nat} {h : Handle} {hs : List Handle}

theorem handle_some (inside : (dev,n) ∈ m.held.map Handle.block) :
    ∃ h, m.handle dev n = some h ∧ h ∈ m.held ∧ h.block = (dev,n) := by
  unfold Client.handle
  cases found : m.held.find? (fun h => h.block == (dev,n)) with
  | none =>
    obtain ⟨h,member,block⟩ := List.mem_map.mp inside
    exact absurd (beq_iff_eq.mpr block) (List.find?_eq_none.mp found h member)
  | some h =>
    have named := List.find?_some found
    exact ⟨h,rfl,List.mem_of_find?_eq_some found,beq_iff_eq.mp named⟩

theorem Idle.bread (idle : Idle m disk) (room : m.held.length < nbuf) (dev n : Nat) :
    ∃ m' h, m.request (.bread dev n) = .ok m' ∧ Idle m' disk ∧ m'.held = h :: m.held ∧ h.block = (dev,n) := by
  obtain ⟨⟨order,inv⟩,written,stored⟩ := idle
  have few : (insert (dev,n) (m.held.map Handle.block).toFinset).card ≤ nbuf := by
    calc
      _ ≤ (m.held.map Handle.block).toFinset.card + 1 := Finset.card_insert_le _ _
      _ ≤ m.held.length + 1 := by
        rw [← List.length_map Handle.block]
        exact Nat.succ_le_succ (List.toFinset_card_le _)
      _ ≤ nbuf := room
  have count : (m.held.map Handle.block).count (dev,n) + 1 < 4294967296 := by
    have most := List.count_le_length (a := (dev,n)) (l := m.held.map Handle.block)
    rw [List.length_map] at most
    unfold nbuf at room
    omega
  obtain ⟨b,cache,ok,_,next⟩ := inv.bread ⟨few,count⟩
  refine ⟨_,⟨b,dev,n⟩,?_,⟨⟨order,next⟩,written,stored⟩,rfl,rfl⟩
  simp only [Client.request,Client.step,ok]

theorem Idle.brelse (idle : Idle m disk) (front : m.held = h :: hs) (block : h.block = (dev,n)) :
    ∃ m', m.request (.brelse dev n) = .ok m' ∧ Idle m' disk ∧ m'.held = hs := by
  obtain ⟨⟨order,inv⟩,written,stored⟩ := idle
  have found : m.handle dev n = some h := by
    unfold Client.handle
    rw [front]
    exact List.find?_cons_of_pos (beq_iff_eq.mpr block)
  have held : h ∈ m.held := front ▸ List.mem_cons_self
  obtain ⟨order',next⟩ := inv.brelse ⟨held,fun changed => absurd ((written h.buf).symm.trans changed) (by decide)⟩
  refine ⟨_,?_,⟨⟨order',next⟩,written,stored⟩,?_⟩
  · simp only [Client.request,found]
    rfl
  · dsimp only
    rw [front]
    exact List.erase_cons_head h hs

theorem Idle.bwrite (idle : Idle m disk) (inside : (dev,n) ∈ m.held.map Handle.block) (data : Block) :
    ∃ m', m.request (.bwrite dev n data) = .ok m' ∧ Idle m' ((Event.bwrite dev n data).store disk) ∧ m'.held = m.held := by
  obtain ⟨⟨order,inv⟩,written,stored⟩ := idle
  obtain ⟨h,found,held,block⟩ := handle_some inside
  have changed := inv.modify held data
  have next := changed.bwrite held
  refine ⟨_,?_,⟨⟨order,next⟩,fun b => ?_,?_⟩,rfl⟩
  · simp only [Client.request,found]
    rfl
  · dsimp only
    rw [Function.update_idem]
    rcases eq_or_ne b h.buf with rfl | other
    · exact Function.update_self _ _ _
    · rw [Function.update_of_ne other]
      exact written b
  · obtain ⟨rfl,rfl⟩ := Prod.mk.inj block
    dsimp only
    rw [setBuf_same,stored]
    rfl

end requests

/-- A log is served and every buffer given back; meanwhile at most `k` more handles are held. -/
structure Serviced (k : Nat) (m m' : Client) (disk : Nat → Nat → Block) (es : List Event) : Prop where
  ok : m.serve es = .ok m'
  idle : Idle m' (replay disk es)
  held : m'.held = m.held
  during : ∀ l, l <:+ es → ∃ c, m.serve l = .ok c ∧ Idle c (replay disk l) ∧
    ∃ hs, c.held = hs ++ m.held ∧ hs.length ≤ k

section service
variable {m m' m'' : Client} {disk : Nat → Nat → Block} {es fs : List Event} {k : Nat}

theorem Serviced.nil (idle : Idle m disk) : Serviced k m m disk [] := by
  refine ⟨rfl,idle,rfl,fun l part => ?_⟩
  rw [List.suffix_nil.mp part]
  exact ⟨m,rfl,idle,[],rfl,Nat.zero_le k⟩

theorem Serviced.single {e : Event} (idle : Idle m disk) (ok : m.request e = .ok m') (idle' : Idle m' (e.store disk))
    (held : m'.held = m.held) : Serviced k m m' disk [e] := by
  refine ⟨ok,idle',held,fun l part => ?_⟩
  rcases List.suffix_cons_iff.mp part with rfl | part
  · exact ⟨m',ok,idle',[],held,Nat.zero_le k⟩
  · exact (Serviced.nil idle).during l part

theorem Serviced.append (first : Serviced k m m' disk es) (second : Serviced k m' m'' (replay disk es) fs) :
    Serviced k m m'' disk (fs ++ es) := by
  refine ⟨(Client.serve_append first.ok).trans second.ok,?_,second.held.trans first.held,fun l part => ?_⟩
  · rw [replay_append]
    exact second.idle
  rcases suffix_append part with early | ⟨t,late,rfl⟩
  · exact first.during l early
  · obtain ⟨c,ok,idle,hs,held,few⟩ := second.during t late
    refine ⟨c,(Client.serve_append first.ok).trans ok,?_,hs,by rw [held,first.held],few⟩
    rw [replay_append]
    exact idle

theorem Serviced.pair {dev n : Nat} {h : Handle} (idle : Idle m disk) (opened : m.request (.bread dev n) = .ok m')
    (idle' : Idle m' disk) (held : m'.held = h :: m.held) (block : h.block = (dev,n))
    (body : Serviced k m' m'' disk es) :
    ∃ m₃, Serviced (k+1) m m₃ disk (.brelse dev n :: (es ++ [.bread dev n])) := by
  have start : m.serve [.bread dev n] = .ok m' := opened
  have same (l : List Event) : replay disk (l ++ [.bread dev n]) = replay disk l := replay_append disk [.bread dev n] l
  obtain ⟨m₃,closed,idle₃,held₃⟩ := body.idle.brelse (body.held.trans held) block
  have ok : m.serve (.brelse dev n :: (es ++ [.bread dev n])) = .ok m₃ := by
    rw [Client.serve,Client.serve_append start,body.ok]
    exact closed
  have final : Idle m₃ (replay disk (.brelse dev n :: (es ++ [.bread dev n]))) := by
    change Idle m₃ (replay disk (es ++ [.bread dev n]))
    rw [same]
    exact idle₃
  refine ⟨m₃,ok,final,held₃,fun l part => ?_⟩
  rcases List.suffix_cons_iff.mp part with rfl | part
  · exact ⟨m₃,ok,final,[],held₃,Nat.zero_le _⟩
  rcases suffix_append part with early | ⟨t,late,rfl⟩
  · rcases List.suffix_cons_iff.mp early with rfl | early
    · exact ⟨m',start,idle',[h],held,Nat.le_add_left 1 k⟩
    · rw [List.suffix_nil.mp early]
      exact ⟨m,rfl,idle,[],rfl,Nat.zero_le _⟩
  · obtain ⟨c,ok,idle,hs,held_c,few⟩ := body.during t late
    refine ⟨c,(Client.serve_append start).trans ok,by rw [same]; exact idle,hs ++ [h],?_,?_⟩
    · rw [held_c,held,List.append_assoc]
      rfl
    · rw [List.length_append]
      exact Nat.succ_le_succ few

end service

section events
variable {e : Event} {b : Nat × Nat}

theorem act_opens : e.act = .opens b ↔ e = .bread b.1 b.2 := by
  cases e <;> simp [Event.act,Prod.ext_iff]

theorem act_closes : e.act = .closes b ↔ e = .brelse b.1 b.2 := by
  cases e <;> simp [Event.act,Prod.ext_iff]

end events

/-- A nested log goes through wherever there is room for what it pins. -/
theorem serve_nested {k : Nat} {keys : List (Nat × Nat)} {es : List Event} (nested : Nested Event.act k keys es)
    {m : Client} {disk : Nat → Nat → Block} (idle : Idle m disk) (sub : keys ⊆ m.held.map Handle.block)
    (room : m.held.length + k ≤ nbuf) : ∃ m', Serviced k m m' disk es := by
  induction nested generalizing m disk with
  | nil => exact ⟨m,.nil idle⟩
  | @other n keys e quiet =>
    cases e with
    | print message => exact ⟨m,.single idle rfl idle rfl⟩
    | itrunc dev k => exact ⟨m,.single idle rfl idle rfl⟩
    | bread dev b => cases quiet
    | bwrite dev b data => cases quiet
    | brelse dev b => cases quiet
  | @uses n keys e k use inside =>
    cases e with
    | bwrite dev b data =>
      cases use
      obtain ⟨m',ok,idle',held⟩ := idle.bwrite (sub inside) data
      exact ⟨m',.single idle ok idle' held⟩
    | print message => cases use
    | itrunc dev k => cases use
    | bread dev b => cases use
    | brelse dev b => cases use
  | append first second ih ih' =>
    obtain ⟨m1,served⟩ := ih idle sub room
    obtain ⟨m2,served2⟩ := ih' served.idle (served.held ▸ sub) (served.held ▸ room)
    exact ⟨m2,served.append served2⟩
  | @pair n keys es e f k start stop body ih =>
    obtain rfl := act_opens.mp start
    obtain rfl := act_closes.mp stop
    obtain ⟨m1,h,ok,idle1,held1,block⟩ := idle.bread (by omega) k.1 k.2
    have sub1 : k :: keys ⊆ m1.held.map Handle.block := by
      rw [held1,List.map_cons,block]
      exact List.cons_subset_cons _ sub
    have room1 : m1.held.length + n ≤ nbuf := by
      rw [held1,List.length_cons]
      omega
    obtain ⟨m2,served⟩ := ih idle1 sub1 room1
    exact Serviced.pair idle ok idle1 held1 block served

/-- The buffers that are pinned. -/
def Bcache.pinned (st : Bcache) : Finset Node := Finset.univ.filter fun b => (st.buf b).refcnt ≠ 0

/-- A log that was served: no `bget` was left without a buffer, no `brelse` met a count of
zero, every count is what it was, and never were more than `k` more buffers pinned. -/
structure Answered (k : Nat) (m m' : Client) (es : List Event) : Prop where
  ok : m.serve es = .ok m'
  found : ∀ dev n l, .bread dev n :: l <:+ es →
    ∃ c b cache, m.serve l = .ok c ∧ bget c.cache dev n = .ok (some b,cache)
  counted : ∀ dev n l, .brelse dev n :: l <:+ es →
    ∃ c h, m.serve l = .ok c ∧ c.handle dev n = some h ∧ (c.cache.buf h.buf).refcnt ≠ 0
  kept : ∀ b, (m'.cache.buf b).refcnt = (m.cache.buf b).refcnt
  few : ∀ l, l <:+ es → ∃ c, m.serve l = .ok c ∧ c.cache.pinned.card ≤ m.cache.pinned.card + k

section answers
variable {m m' : Client} {disk : Nat → Nat → Block} {es : List Event} {k : Nat}

theorem Idle.pinned (idle : Idle m disk) (b : Node) : b ∈ m.cache.pinned ↔ b ∈ m.held.map Handle.buf := by
  obtain ⟨order,inv⟩ := idle.inv
  unfold Bcache.pinned
  rw [Finset.mem_filter,← inv.counts.positive,Int.natCast_pos,Nat.pos_iff_ne_zero]
  refine ⟨fun used zero => used.2 (BitVec.eq_of_toNat_eq zero),fun used => ⟨Finset.mem_univ b,?_⟩⟩
  rintro zero
  exact used (congrArg BitVec.toNat zero)

theorem serve_before {e : Event} {l : List Event} {c : Client} (ok : m.serve (e :: l) = .ok c) :
    ∃ c₀, m.serve l = .ok c₀ ∧ c₀.request e = .ok c := by
  rw [Client.serve] at ok
  cases before : m.serve l with
  | error e =>
    rw [before] at ok
    cases ok
  | ok c₀ =>
    rw [before] at ok
    exact ⟨c₀,rfl,ok⟩

theorem Serviced.answered (start : Idle m disk) (served : Serviced k m m' disk es) : Answered k m m' es := by
  refine ⟨served.ok,fun dev n l part => ?_,fun dev n l part => ?_,fun b => ?_,fun l part => ?_⟩
  · obtain ⟨c,ok,_⟩ := served.during _ part
    obtain ⟨c₀,before,made⟩ := serve_before ok
    dsimp only [Client.request,Client.step,Bio.bread] at made
    cases got : bget c₀.cache dev n with
    | error e =>
      rw [got] at made
      cases made
    | ok r =>
      obtain ⟨_ | b,cache⟩ := r
      · rw [got] at made
        cases made
      · exact ⟨c₀,b,cache,before,got⟩
  · obtain ⟨c,ok,_⟩ := served.during _ part
    obtain ⟨c₀,before,idle,_⟩ := served.during l ((List.suffix_cons _ l).trans part)
    obtain ⟨c₁,before₁,made⟩ := serve_before ok
    obtain rfl := Except.ok.inj (before.symm.trans before₁)
    dsimp only [Client.request] at made
    cases found : c₀.handle dev n with
    | none =>
      rw [found] at made
      cases made
    | some h =>
      have held := List.mem_map_of_mem (f := Handle.buf) (List.mem_of_find?_eq_some found)
      exact ⟨c₀,h,before,found,(Finset.mem_filter.mp ((idle.pinned h.buf).mpr held)).2⟩
  · obtain ⟨order,inv⟩ := start.inv
    obtain ⟨order',inv'⟩ := served.idle.inv
    have count := inv'.counts b
    rw [served.held,← inv.counts b] at count
    exact BitVec.eq_of_toNat_eq (Int.natCast_inj.mp count)
  · obtain ⟨c,ok,idle,hs,held,few⟩ := served.during l part
    refine ⟨c,ok,?_⟩
    have inside : c.cache.pinned ⊆ m.cache.pinned ∪ (hs.map Handle.buf).toFinset := by
      intro b pinned
      have member := (idle.pinned b).mp pinned
      rw [held,List.map_append,List.mem_append] at member
      rcases member with new | old
      · exact Finset.mem_union_right _ (List.mem_toFinset.mpr new)
      · exact Finset.mem_union_left _ ((start.pinned b).mpr old)
    calc
      c.cache.pinned.card ≤ (m.cache.pinned ∪ (hs.map Handle.buf).toFinset).card := Finset.card_le_card inside
      _ ≤ m.cache.pinned.card + (hs.map Handle.buf).toFinset.card := Finset.card_union_le _ _
      _ ≤ m.cache.pinned.card + (hs.map Handle.buf).length := Nat.add_le_add_left (List.toFinset_card_le _) _
      _ ≤ m.cache.pinned.card + k := by
        rw [List.length_map]
        exact Nat.add_le_add_left few _

theorem boot_idle (disk : Nat → Nat → Block) : Idle (Client.boot disk) disk := ⟨⟨_,boot_inv disk⟩,fun _ => rfl,rfl⟩

end answers

end Lxos.Bio
