import Lxos.Files.Requests
import Lxos.Kernel.Stores

/-! What the program finds in its memory after a call: the bytes that were read, or the
attributes of a file, and everything else as it was. -/
namespace Lxos.Files
open Lxos.Bytes Lxos.Fs Lxos.Kernel Lxos.Outcome Lxos.Places

/-- `struct stat` as the program reads it. -/
def readStat (b : Buffer) : Stat := ⟨le16 b 0,(le32 b 4).toNat,(le32 b 8).toNat,le16 b 12,le32 b 16⟩

/-- What the program takes from address `p` once a call has returned `r`. -/
def observed (k : State) (p : Nat) (r : Int) : Request → Output
  | .read _ _ => .bytes (taken (userMem k p) r.toNat)
  | .fstat _ => if r = 0 then .stat (readStat (userMem k p)) else .none
  | _ => .none

/-- The bytes of memory that a request may change. -/
def extent (r : Int) : Request → Nat
  | .read _ _ => r.toNat
  | .fstat _ => if r = 0 then statSize else 0
  | _ => 0

theorem readStat_congr {b c : Buffer} (same : ∀ i < statSize, b i = c i) : readStat b = readStat c := by
  have half (o : Nat) (inside : o + 2 ≤ statSize) : le16 b o = le16 c o := le16_congr fun i low => same (o + i) (by omega)
  have word (o : Nat) (inside : o + 4 ≤ statSize) : le32 b o = le32 c o := le32_congr fun i low => same (o + i) (by omega)
  unfold readStat
  rw [half 0 (by decide),word 4 (by decide),word 8 (by decide),half 12 (by decide),word 16 (by decide)]

/-- The attributes come back, whatever lies between them. -/
theorem readStat_statBytes (old : Buffer) {s : Stat} (dev : s.dev < 4294967296) (ino : s.ino < 4294967296) :
    readStat (statBytes old s) = s := by
  have type : le16 (statBytes old s) 0 = s.type := by
    unfold statBytes put32 put16
    simp (disch := omega) only [le16_blit_outside]
    exact le16_put16 old 0 s.type
  have device : le32 (statBytes old s) 4 = BitVec.ofNat 32 s.dev := by
    unfold statBytes put32 put16
    simp (disch := omega) only [le32_blit_outside]
    exact le32_put32 _ 4 _
  have number : le32 (statBytes old s) 8 = BitVec.ofNat 32 s.ino := by
    unfold statBytes put32 put16
    simp (disch := omega) only [le32_blit_outside]
    exact le32_put32 _ 8 _
  have links : le16 (statBytes old s) 12 = s.nlink := by
    unfold statBytes put32
    simp (disch := omega) only [le16_blit_outside]
    exact le16_put16 _ 12 _
  have size : le32 (statBytes old s) 16 = s.size := le32_put32 _ 16 _
  unfold readStat
  rw [type,device,number,links,size,BitVec.toNat_ofNat,BitVec.toNat_ofNat,Nat.mod_eq_of_lt dev,Nat.mod_eq_of_lt ino]

section requests
variable {k : State} {call : Call} {n fd p : Nat} {size : Int}

theorem span_room (limit : k.proc.sz ≤ 2147483648) (small : size < 2147483648) (inside : span k n size = some p) :
    p + size.toNat ≤ k.proc.sz := by
  unfold span at inside
  obtain ⟨v,_,checked⟩ := Option.bind_eq_some_iff.mp inside
  split at checked
  · cases checked
  · rename_i good
    obtain rfl := Option.some.inj checked
    rw [u32_of_lt (by omega)] at good
    omega

theorem asked_some {o : Option Request} {q : Request} (asked : o.getD .refused = q) (real : q ≠ .refused) : o = some q := by
  cases o with
  | none => exact absurd asked.symm real
  | some q' => exact congrArg some asked

/-- The buffer that a read or a `fstat` is given lies in the memory of the process. -/
theorem request_room (limit : k.proc.sz ≤ 2147483648) {q : Request} (asked : request k call = some q) :
    (∀ fd n, q = .read fd n → (word k 1).getD 0 + n ≤ k.proc.sz) ∧
    ∀ fd, q = .fstat fd → (word k 1).getD 0 + statSize ≤ k.proc.sz := by
  have plain {o : Option Request} (asked : some (o.getD .refused) = some q)
      (other : ∀ q, o = some q → (∀ fd n, q ≠ .read fd n) ∧ ∀ fd, q ≠ .fstat fd) :
      (∀ fd n, q = .read fd n → (word k 1).getD 0 + n ≤ k.proc.sz) ∧
      ∀ fd, q = .fstat fd → (word k 1).getD 0 + statSize ≤ k.proc.sz := by
    refine ⟨fun fd n here => ?_,fun fd here => ?_⟩
    · subst here
      exact absurd rfl ((other _ (asked_some (Option.some.inj asked) (by simp))).1 fd n)
    · subst here
      exact absurd rfl ((other _ (asked_some (Option.some.inj asked) (by simp))).2 fd)
  cases call with
  | read =>
    refine ⟨fun fd n here => ?_,fun fd here => ?_⟩
    · subst here
      have asked := asked_some (Option.some.inj asked) (by simp)
      obtain ⟨a,_,asked⟩ := Option.bind_eq_some_iff.mp asked
      obtain ⟨m,third,asked⟩ := Option.bind_eq_some_iff.mp asked
      obtain ⟨p,place,same⟩ := Option.map_eq_some_iff.mp asked
      obtain ⟨rfl,rfl⟩ := Request.read.inj same
      have small := span_small (word_bound third) place
      have value : int32 m = m := if_pos small
      have room := span_room limit (by omega) place
      rw [value,Int.toNat_natCast] at room
      rw [span_word place]
      exact room
    · subst here
      have asked := asked_some (Option.some.inj asked) (by simp)
      obtain ⟨a,_,asked⟩ := Option.bind_eq_some_iff.mp asked
      obtain ⟨m,_,asked⟩ := Option.bind_eq_some_iff.mp asked
      obtain ⟨p,_,same⟩ := Option.map_eq_some_iff.mp asked
      cases same
  | fstat =>
    refine ⟨fun fd n here => ?_,fun fd here => ?_⟩
    · subst here
      have asked := asked_some (Option.some.inj asked) (by simp)
      obtain ⟨a,_,asked⟩ := Option.bind_eq_some_iff.mp asked
      obtain ⟨p,_,same⟩ := Option.map_eq_some_iff.mp asked
      cases same
    · subst here
      have asked := asked_some (Option.some.inj asked) (by simp)
      obtain ⟨a,_,asked⟩ := Option.bind_eq_some_iff.mp asked
      obtain ⟨p,place,_⟩ := Option.map_eq_some_iff.mp asked
      have room := span_room limit (by decide) place
      rw [span_word place]
      exact room
  | write =>
    refine plain asked fun q here => ?_
    obtain ⟨a,_,here⟩ := Option.bind_eq_some_iff.mp here
    obtain ⟨m,_,here⟩ := Option.bind_eq_some_iff.mp here
    obtain ⟨p,_,rfl⟩ := Option.map_eq_some_iff.mp here
    exact ⟨by simp,by simp⟩
  | open_ =>
    refine plain asked fun q here => ?_
    obtain ⟨path,_,here⟩ := Option.bind_eq_some_iff.mp here
    obtain ⟨m,_,rfl⟩ := Option.map_eq_some_iff.mp here
    exact ⟨by simp,by simp⟩
  | mknod =>
    refine plain asked fun q here => ?_
    obtain ⟨path,_,here⟩ := Option.bind_eq_some_iff.mp here
    obtain ⟨major,_,here⟩ := Option.bind_eq_some_iff.mp here
    obtain ⟨minor,_,rfl⟩ := Option.map_eq_some_iff.mp here
    exact ⟨by simp,by simp⟩
  | close =>
    refine plain asked fun q here => ?_
    obtain ⟨a,_,rfl⟩ := Option.map_eq_some_iff.mp here
    exact ⟨by simp,by simp⟩
  | exec => cases asked

end requests

/-! What a request gives back, and where it lands. -/
section output
variable {all : List Page} {kpgdir : Page} {k k' : State} {s s' : Service} {q : Request} {r : Int} {out : Output} {p : Nat}

theorem Service.read_output (s : Service) (fd n : Nat) :
    (s.read fd n).1.toNat = (s.read fd n).2.1.length ∧ (s.read fd n).2.1.length ≤ n := by
  unfold Service.read
  split
  · exact ⟨rfl,Nat.zero_le n⟩
  · split
    · exact ⟨rfl,Nat.zero_le n⟩
    · exact ⟨Int.toNat_natCast _,List.length_take_le _ _⟩

theorem map_output {x : Except Fault (Int × Service)} (ok : x.map (fun r => ((r.1,Output.none),r.2)) = .ok ((r,out),s')) :
    Output.none = out := by
  cases x with
  | error e => cases ok
  | ok t => exact congrArg (fun t => t.1.2) (Except.ok.inj ok)

theorem Service.fstat_output (numbers : ∀ fd d, s.desc fd = some d → d.inum < 4294967296) (fd : Nat) :
    (s.fstat fd = (-1,none)) ∨ ∃ v, s.fstat fd = (0,some v) ∧ v.dev < 4294967296 ∧ v.ino < 4294967296 := by
  unfold Service.fstat
  cases found : s.lookup fd with
  | none => exact Or.inl rfl
  | some d =>
    refine Or.inr ⟨_,rfl,(by decide : rootdev < 4294967296),?_⟩
    unfold Service.lookup at found
    split at found
    · obtain ⟨d',here,rfl⟩ := Option.map_eq_some_iff.mp found
      exact numbers _ d' here
    · cases found

/-- The program finds what the service gives back, and no other byte of its memory changes. -/
theorem delivered (paged : Paged all kpgdir k) (served : s.serve q = .ok ((r,out),s'))
    (numbers : ∀ fd d, s.desc fd = some d → d.inum < 4294967296)
    (room : (∀ fd n, q = .read fd n → p + n ≤ k.proc.sz) ∧ ∀ fd, q = .fstat fd → p + statSize ≤ k.proc.sz)
    (vm : k'.vm = (deliver k p out).vm) (pgdir : k'.proc.pgdir = k.proc.pgdir) :
    out = observed k' p r q ∧ ∀ a < k.proc.sz, ¬(p ≤ a ∧ a < p + extent r q) → userByte k' a = userByte k a := by
  have nothing (none : out = .none) (a : Nat) : userByte k' a = userByte k a := by
    subst none
    exact userByte_congr vm pgdir a
  have put {src : Buffer} {n : Nat} (copied : k'.vm = (storeUser k p src n).vm) (a : Nat) :
      userByte k' a = userByte (storeUser k p src n) a :=
    userByte_congr copied (pgdir.trans (congrArg Proc.pgdir (storeUser_proc k p src n).symm)) a
  cases q with
  | read fd n =>
    obtain ⟨rfl,rfl,rfl⟩ : (s.read fd n).1 = r ∧ Output.bytes (s.read fd n).2.1 = out ∧ (s.read fd n).2.2 = s' := by
      injection served with same
      exact ⟨congrArg (fun t => t.1.1) same,congrArg (fun t => t.1.2) same,congrArg Prod.snd same⟩
    obtain ⟨count,fits⟩ := s.read_output fd n
    have within := room.1 fd n rfl
    have span : p + (s.read fd n).2.1.length ≤ k.proc.sz := by omega
    have byte (a : Nat) (low : a < k.proc.sz) := @Paged.stored _ _ k a _ p (bytes (s.read fd n).2.1) paged span low
    refine ⟨?_,fun a low away => ?_⟩
    · unfold observed
      rw [count]
      refine congrArg Output.bytes (data_ext taken_length.symm fun o inside => ?_)
      rw [taken_length] at inside
      rw [bytes_taken inside,userMem,put vm,byte (p + o) (by omega),if_pos (by omega),Nat.add_sub_cancel_left]
    · change ¬(p ≤ a ∧ a < p + (s.read fd n).1.toNat) at away
      rw [count] at away
      rw [put vm,byte a low,if_neg away]
  | fstat fd =>
    obtain ⟨rfl,rfl,rfl⟩ : (s.fstat fd).1 = r ∧ ((s.fstat fd).2.map Output.stat).getD .none = out ∧ s = s' := by
      injection served with same
      exact ⟨congrArg (fun t => t.1.1) same,congrArg (fun t => t.1.2) same,congrArg Prod.snd same⟩
    rcases s.fstat_output numbers fd with refused | ⟨v,told,dev,ino⟩
    · rw [refused] at vm nothing ⊢
      exact ⟨rfl,fun a _ _ => nothing rfl a⟩
    · rw [told] at vm ⊢
      have within := room.2 fd rfl
      have byte (a : Nat) (low : a < k.proc.sz) := @Paged.stored _ _ k a _ p (statBytes (userMem k p) v) paged within low
      refine ⟨?_,fun a low away => ?_⟩
      · change Output.stat v = Output.stat (readStat (userMem k' p))
        refine congrArg Output.stat ((readStat_statBytes (userMem k p) dev ino).symm.trans (readStat_congr fun i low => ?_))
        rw [userMem,put vm,byte (p + i) (by omega),if_pos (by omega),Nat.add_sub_cancel_left]
      · change ¬(p ≤ a ∧ a < p + statSize) at away
        rw [put vm,byte a low,if_neg away]
  | refused =>
    obtain rfl : Output.none = out := congrArg (fun t => t.1.2) (Except.ok.inj served)
    exact ⟨rfl,fun a _ _ => nothing rfl a⟩
  | write fd src =>
    obtain rfl : Output.none = out := congrArg (fun t => t.1.2) (Except.ok.inj served)
    exact ⟨rfl,fun a _ _ => nothing rfl a⟩
  | close fd =>
    obtain rfl : Output.none = out := congrArg (fun t => t.1.2) (Except.ok.inj served)
    exact ⟨rfl,fun a _ _ => nothing rfl a⟩
  | open_ path omode =>
    obtain rfl := map_output served
    exact ⟨rfl,fun a _ _ => nothing rfl a⟩
  | mknod path major minor =>
    obtain rfl := map_output served
    exact ⟨rfl,fun a _ _ => nothing rfl a⟩

end output

end Lxos.Files
