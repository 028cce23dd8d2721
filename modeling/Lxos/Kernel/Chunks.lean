import Lxos.Fs.Overlay
import Lxos.Kernel.File

/-! Reads and writes through a descriptor. `filewrite` cuts a write into chunks, and a
program may cut it again; neither cut shows in the file or in the offset. -/
namespace Lxos.Kernel
open Lxos.Bytes Lxos.Fs

/-- The inode that descriptor `f` is open for. -/
def State.dinode (k : State) (dev : Nat) (f : FileId) : Dinode :=
  (k.fs.volume dev).inode (k.fs.icache (k.file f).ip).inum

/-- Descriptor `f` is open for a file of type `T_FILE`, with its offset inside. -/
structure Opened (dev : Nat) (f : FileId) (k : State) : Prop where
  type : (k.file f).type = .inode
  named : Named dev (k.file f).ip k.fs
  sound : (k.fs.volume dev).Sound
  file : (k.dinode dev f).type = tFile
  within : (k.file f).off ≤ (k.dinode dev f).size.toNat
  small : (k.dinode dev f).size.toNat ≤ 71680

/-- `n` bytes of `src` were written at the offset of `f`, which moved by `move`. -/
structure Put (dev : Nat) (f : FileId) (src : Buffer) (n move : Nat) (k k' : State) : Prop where
  file : k'.file = Function.update k.file f { k.file f with off := (k.file f).off + move }
  proc : k'.proc = k.proc
  fs : Overlaid dev (k.file f).ip src (k.file f).off n k.fs k'.fs

section put
variable {dev m n a b : Nat} {f : FileId} {src : Buffer} {k k' k'' : State}

theorem Opened.regular (opened : Opened dev f k) : (k.dinode dev f).type ≠ tDev := by
  rw [opened.file]
  decide

theorem Put.self (put : Put dev f src n m k k') : k'.file f = { k.file f with off := (k.file f).off + m } := by
  rw [put.file,Function.update_self]

theorem Put.opened (put : Put dev f src n m k k') (opened : Opened dev f k)
    (inside : (k.file f).off + m ≤ max (k.dinode dev f).size.toNat ((k.file f).off + n))
    (room : (k.file f).off + n ≤ 71680) : Opened dev f k' := by
  have small := opened.small
  have self := put.self
  have size := put.fs.size
  obtain ⟨addrs,length,attrs⟩ := put.fs.attrs
  have number := put.fs.calm.inum (k.file f).ip
  have same : k'.dinode dev f = (k'.fs.volume dev).inode (k.fs.icache (k.file f).ip).inum := by
    unfold State.dinode
    rw [self,number]
  refine ⟨?_,?_,put.fs.sound,?_,?_,?_⟩
  · rw [self]
    exact opened.type
  · rw [self]
    exact put.fs.calm.named put.fs.sb opened.named
  · rw [same,attrs]
    exact opened.file
  · rw [self,same,size]
    exact inside
  · rw [same,size]
    exact max_le small room

theorem Put.trans (first : Put dev f src m a k k') (second : Put dev f (fun i => src (m + i)) n b k' k'')
    (next : (k.file f).off + m = (k'.file f).off) : Put dev f src (m + n) (a + b) k k'' := by
  have self := first.self
  refine ⟨?_,second.proc.trans first.proc,?_⟩
  · rw [second.file,self,first.file,Function.update_idem]
    simp only [Nat.add_assoc]
  · have later := second.fs
    rw [← next,self] at later
    exact first.fs.trans later

theorem userMem_congr (vm : k'.vm = k.vm) (proc : k'.proc = k.proc) (va : Nat) : userMem k' va = userMem k va := by
  unfold userMem userByte
  rw [vm,proc]

theorem userMem_add (k : State) (va m : Nat) : userMem k (va + m) = fun i => userMem k va (m + i) := by
  funext i
  unfold userMem
  rw [Nat.add_assoc]

end put

/-! `filewrite`. -/
section write
variable {dev n : Nat} {f : FileId} {src : Buffer} {k : State} {fs : FsState}

theorem writei_answers (st : FsState) (ip : Slot) (src : Buffer) (off n : Nat) :
    (writei st ip src off n).1 = -1 ∨ (writei st ip src off n).1 = int32 n := by
  by_cases device : (st.icache ip).type = tDev
  · rw [writei_answer device]
    split
    · exact Or.inr rfl
    · exact Or.inl rfl
  · unfold writei
    simp only [device,if_false]
    split
    · exact Or.inl rfl
    · split
      · exact Or.inl rfl
      · exact Or.inr rfl

theorem iunlock_named {ip : Slot} {st : FsState} (named : Named dev ip st) : iunlock st ip = st := by
  have positive := named.ref
  exact if_neg (by omega)

/-- Each round writes a chunk or is the last one. -/
theorem filewriteLoop_total (addr : Nat) {fuel i : Nat} (within : i ≤ n) (enough : n < i + fuel) :
    ∃ r, filewriteLoop f addr n fuel k i = .ok r ∧ k.fs.trace <:+ r.2.fs.trace := by
  induction fuel generalizing k i with
  | zero => omega
  | succ fuel ih =>
    unfold filewriteLoop
    split
    · rename_i more
      have answer := writei_answers (ilock k.fs (k.file f).ip) (k.file f).ip (userMem k (addr + i)) (k.file f).off
        (min (n - i) writeMax)
      have trace := (ilock_calm k.fs (k.file f).ip).trace.trans
        (writei_local (ilock k.fs (k.file f).ip) (k.file f).ip (userMem k (addr + i)) (k.file f).off
          (min (n - i) writeMax)).trace
      have chunk : int32 (min (n - i) writeMax) = min (n - i) writeMax :=
        int32_of_lt (by change min (n - i) 1536 < 2147483648; omega)
      have size : 0 < min (n - i) writeMax ∧ min (n - i) writeMax ≤ n - i := by
        change 0 < min (n - i) 1536 ∧ _
        omega
      rw [chunk] at answer
      dsimp only
      generalize min (n - i) writeMax = n1 at answer trace size ⊢
      generalize writei (ilock k.fs (k.file f).ip) (k.file f).ip (userMem k (addr + i)) (k.file f).off n1 = result
        at answer trace ⊢
      obtain ⟨r,fs⟩ := result
      dsimp only at answer trace ⊢
      rcases answer with rfl | rfl
      · exact ⟨_,rfl,trace.trans (iunlock_calm _ _).trace⟩
      · have written : ¬((n1 : Nat) : Int) < 0 := by omega
        have moved : ((n1 : Nat) : Int) > 0 := by omega
        rw [if_neg written,if_neg (not_not.mpr rfl),if_pos moved,Int.toNat_natCast]
        obtain ⟨r,ok,rest⟩ := @ih { k with
          fs := iunlock fs (k.file f).ip
          file := Function.update k.file f { k.file f with off := u32 ((k.file f).off + n1) } } (i + n1) (by omega) (by omega)
        exact ⟨r,ok,(trace.trans (iunlock_calm _ _).trace).trans rest⟩
    · exact ⟨_,rfl,List.suffix_refl _⟩

/-- What a chunk does that fits into the largest file. -/
theorem chunk_put (opened : Opened dev f k) (addr : Nat) {n1 : Nat} (room : (k.file f).off + n1 ≤ 71680)
    (enough : (writei (ilock k.fs (k.file f).ip) (k.file f).ip (userMem k addr) (k.file f).off n1).2.exhausted = false) :
    (writei (ilock k.fs (k.file f).ip) (k.file f).ip (userMem k addr) (k.file f).off n1).1 = n1 ∧
      Put dev f (userMem k addr) n1 n1 k { k with
        fs := (writei (ilock k.fs (k.file f).ip) (k.file f).ip (userMem k addr) (k.file f).off n1).2
        file := Function.update k.file f { k.file f with off := u32 ((k.file f).off + n1) } } := by
  obtain ⟨count,laid⟩ := writei_overlaid opened.named opened.sound opened.regular opened.within (userMem k addr) room enough
  refine ⟨count,?_,rfl,laid⟩
  rw [u32_of_lt (by omega)]

theorem Put.none (laid : Overlaid dev (k.file f).ip src (k.file f).off 0 k.fs fs) : Put dev f src 0 0 k { k with fs := fs } :=
  ⟨(Function.update_eq_self f k.file).symm,rfl,laid⟩

/-- The chunks from `i` on: all of them, or those that fit. -/
theorem filewriteLoop_put (opened : Opened dev f k) (addr : Nat) {fuel i : Nat} (within : i ≤ n) (fuelled : n < i + fuel)
    {r : Int × State} (ok : filewriteLoop f addr n fuel k i = .ok r) (enough : r.2.fs.exhausted = false) : r.2.vm = k.vm ∧
      ((k.file f).off + (n - i) ≤ 71680 → r.1 = n ∧ Put dev f (userMem k (addr + i)) (n - i) (n - i) k r.2) ∧
      (71680 < (k.file f).off + (n - i) → r.1 = -1 ∧ Put dev f (userMem k (addr + i))
        (1536 * ((71680 - (k.file f).off) / 1536)) (1536 * ((71680 - (k.file f).off) / 1536)) k r.2) := by
  induction fuel generalizing k i with
  | zero => cases ok
  | succ fuel ih =>
    have fits := opened.within.trans opened.small
    unfold filewriteLoop at ok
    split at ok
    · rename_i more
      have chunk := @chunk_put dev f k opened (addr + i) (min (n - i) writeMax)
      have refused := @writei_over dev (k.file f).off (min (n - i) writeMax) (k.file f).ip k.fs opened.named opened.sound
        opened.regular (userMem k (addr + i)) (by change min (n - i) 1536 < 4294967296; omega)
      have answers := writei_answers (ilock k.fs (k.file f).ip) (k.file f).ip (userMem k (addr + i)) (k.file f).off
        (min (n - i) writeMax)
      have size : 0 < min (n - i) writeMax ∧ min (n - i) writeMax ≤ n - i ∧
          (min (n - i) writeMax = 1536 ∨ min (n - i) writeMax = n - i ∧ n - i ≤ 1536) := by
        change 0 < min (n - i) 1536 ∧ min (n - i) 1536 ≤ n - i ∧ (min (n - i) 1536 = 1536 ∨ min (n - i) 1536 = n - i ∧ _)
        omega
      dsimp only at ok
      generalize min (n - i) writeMax = n1 at chunk refused answers size ok
      rw [int32_of_lt (show n1 < 2147483648 by omega)] at answers
      by_cases room : (k.file f).off + n1 ≤ 71680
      · have answer := chunk room
        generalize writei (ilock k.fs (k.file f).ip) (k.file f).ip (userMem k (addr + i)) (k.file f).off n1 = result
          at answer answers ok
        obtain ⟨c,fs⟩ := result
        dsimp only at answer answers ok
        rcases answers with rfl | rfl
        · cases ok
          have free := exhausted_of_suffix (iunlock_calm fs (k.file f).ip).trace enough
          have := (answer free).1
          omega
        · rw [if_neg (show ¬((n1 : Nat) : Int) < 0 by omega),if_neg (not_not.mpr rfl),
            if_pos (show ((n1 : Nat) : Int) > 0 by omega),Int.toNat_natCast] at ok
          obtain ⟨r',ok',trace⟩ := @filewriteLoop_total n f { k with
            fs := iunlock fs (k.file f).ip
            file := Function.update k.file f { k.file f with off := u32 ((k.file f).off + n1) } } addr fuel (i + n1)
            (by omega) (by omega)
          obtain rfl : r' = r := Except.ok.inj (ok'.symm.trans ok)
          have free := exhausted_of_suffix ((iunlock_calm fs (k.file f).ip).trace.trans trace) enough
          obtain ⟨_,put⟩ := answer free
          have unlocked := iunlock_named (put.fs.calm.named put.fs.sb opened.named)
          dsimp only at unlocked
          rw [unlocked] at ok'
          have opened1 := put.opened opened (le_max_right _ _) room
          generalize moved : ({ k with
            fs := fs
            file := Function.update k.file f { k.file f with off := u32 ((k.file f).off + n1) } } : State) = k1 at *
          have memory : userMem k1 (addr + (i + n1)) = fun j => userMem k (addr + i) (n1 + j) := by
            rw [← userMem_add,Nat.add_assoc]
            exact userMem_congr (by rw [← moved]) put.proc _
          have off : (k.file f).off + n1 = (k1.file f).off := (congrArg File.off put.self).symm
          obtain ⟨vm,all,some⟩ := ih opened1 (i := i + n1) (by omega) (by omega) ok'
          rw [memory,← off] at all some
          refine ⟨vm.trans (by rw [← moved]),fun inside => ?_,fun beyond => ?_⟩
          · obtain ⟨count,rest⟩ := all (by omega)
            have whole := put.trans rest off
            have sum : n1 + (n - (i + n1)) = n - i := by omega
            rw [sum] at whole
            exact ⟨count,whole⟩
          · obtain ⟨count,rest⟩ := some (by omega)
            have whole := put.trans rest off
            have sum : n1 + 1536 * ((71680 - ((k.file f).off + n1)) / 1536) = 1536 * ((71680 - (k.file f).off) / 1536) := by
              omega
            rw [sum] at whole
            exact ⟨count,whole⟩
      · have refuse := refused (by omega)
        rw [refuse] at ok
        have unlocked := iunlock_named ((ilock_calm k.fs (k.file f).ip).named (ilock_loaded opened.named).sb opened.named)
        cases ok
        refine ⟨rfl,fun inside => by omega,fun beyond => ⟨rfl,?_⟩⟩
        have nothing : 1536 * ((71680 - (k.file f).off) / 1536) = 0 := by omega
        rw [nothing]
        change Put dev f _ 0 0 k { k with fs := iunlock (ilock k.fs (k.file f).ip) (k.file f).ip }
        rw [unlocked]
        exact Put.none (ilock_overlaid opened.named opened.sound opened.within _)
    · obtain rfl : i = n := by omega
      rw [if_pos rfl] at ok
      cases ok
      refine ⟨rfl,fun _ => ⟨rfl,?_⟩,fun beyond => by omega⟩
      rw [Nat.sub_self]
      exact Put.none (Overlaid.refl opened.sound opened.within _)

theorem filewrite_loop (opened : Opened dev f k) (writable : (k.file f).writable = true) (addr n : Nat) :
    filewrite k f addr n = filewriteLoop f addr n (n + 1) k 0 := by
  unfold filewrite
  dsimp only
  rw [writable,if_neg (by decide),if_pos opened.type]

theorem filewrite_put (opened : Opened dev f k) (writable : (k.file f).writable = true) (addr n : Nat) :
    ∃ r k', filewrite k f addr n = .ok (r,k') ∧ k.fs.trace <:+ k'.fs.trace ∧ (k'.fs.exhausted = false → k'.vm = k.vm ∧
      ((k.file f).off + n ≤ 71680 → r = n ∧ Put dev f (userMem k addr) n n k k') ∧
      (71680 < (k.file f).off + n → r = -1 ∧ Put dev f (userMem k addr)
        (1536 * ((71680 - (k.file f).off) / 1536)) (1536 * ((71680 - (k.file f).off) / 1536)) k k')) := by
  obtain ⟨⟨r,k'⟩,ok,trace⟩ := @filewriteLoop_total n f k addr (n + 1) 0 (Nat.zero_le n) (by omega)
  refine ⟨r,k',(filewrite_loop opened writable addr n).trans ok,trace,fun enough => ?_⟩
  exact filewriteLoop_put opened addr (Nat.zero_le n) (by omega) ok enough

/-- Writes of consecutive parts of a buffer, and whether all of them succeeded. -/
def filewrites (f : FileId) : State → Nat → List Nat → Except Fault (Bool × State)
  | k, _, [] => .ok (true,k)
  | k, addr, n :: ns =>
    match filewrite k f addr n with
    | .error e => .error e
    | .ok (r,k) => if r = n then filewrites f k (addr + n) ns else .ok (false,k)

theorem filewrite_trace {addr : Nat} {r : Int × State} (ok : filewrite k f addr n = .ok r) : k.fs.trace <:+ r.2.fs.trace := by
  unfold filewrite at ok
  dsimp only at ok
  split at ok
  · cases ok
    exact List.suffix_refl _
  · split at ok
    · obtain ⟨r',ok',trace⟩ := @filewriteLoop_total n f k addr (n + 1) 0 (Nat.zero_le n) (by omega)
      obtain rfl : r' = r := Except.ok.inj (ok'.symm.trans ok)
      exact trace
    · cases ok
      exact List.suffix_cons _ _

theorem filewrites_trace {ns : List Nat} {addr : Nat} {r : Bool × State} (ok : filewrites f k addr ns = .ok r) :
    k.fs.trace <:+ r.2.fs.trace := by
  induction ns generalizing k addr with
  | nil =>
    cases ok
    exact List.suffix_refl _
  | cons n ns ih =>
    unfold filewrites at ok
    split at ok
    · cases ok
    · rename_i step
      have first := filewrite_trace step
      split at ok
      · exact first.trans (ih ok)
      · cases ok
        exact first

/-- Writes that succeed are one write. -/
theorem filewrites_put {ns : List Nat} {k' : State} (opened : Opened dev f k) (writable : (k.file f).writable = true)
    {addr : Nat} (ok : filewrites f k addr ns = .ok (true,k')) (enough : k'.fs.exhausted = false) :
    k'.vm = k.vm ∧ (k.file f).off + ns.sum ≤ 71680 ∧ Put dev f (userMem k addr) ns.sum ns.sum k k' := by
  induction ns generalizing k addr with
  | nil =>
    cases ok
    exact ⟨rfl,opened.within.trans opened.small,Put.none (Overlaid.refl opened.sound opened.within _)⟩
  | cons n ns ih =>
    obtain ⟨r,k1,step,_,spec⟩ := filewrite_put opened writable addr n
    unfold filewrites at ok
    rw [step] at ok
    dsimp only at ok
    split at ok
    · rename_i success
      obtain ⟨vm,all,some⟩ := spec (exhausted_of_suffix (filewrites_trace ok) enough)
      have room : (k.file f).off + n ≤ 71680 := by
        by_contra beyond
        have := (some (by omega)).1
        omega
      obtain ⟨_,put⟩ := all room
      have off : (k.file f).off + n = (k1.file f).off := (congrArg File.off put.self).symm
      have memory : userMem k1 (addr + n) = fun i => userMem k addr (n + i) := by
        rw [← userMem_add]
        exact userMem_congr vm put.proc _
      obtain ⟨vm',room',rest⟩ := ih (put.opened opened (le_max_right _ _) room) (by rw [put.self]; exact writable) ok
      rw [memory] at rest
      rw [List.sum_cons]
      exact ⟨vm'.trans vm,by omega,put.trans rest off⟩
    · cases ok

end write

/-! `fileread`. -/
section read
variable {dev n r : Nat} {f : FileId} {k k' k'' : State} {src src' : Buffer}

theorem storeUser_proc (k : State) (va : Nat) (src : Buffer) (n : Nat) : (storeUser k va src n).proc = k.proc := by
  obtain ⟨frame,stored⟩ := storeUser_frame k va src n
  rw [stored]

theorem storeUser_vm (vm : k'.vm = k.vm) (proc : k'.proc = k.proc) (va : Nat) (same : ∀ i < n, src' i = src i) :
    (storeUser k' va src' n).vm = (storeUser k va src n).vm := by
  induction n with
  | zero => exact vm
  | succ n ih =>
    have before := ih fun i low => same i (Nat.lt_succ_of_lt low)
    unfold storeUser
    dsimp only
    rw [before,storeUser_proc,storeUser_proc,proc,same n (Nat.lt_succ_self n)]
    split
    · rfl
    · exact before

/-- A copy in two parts. -/
theorem storeUser_add (k : State) (va : Nat) (src : Buffer) (m n : Nat) :
    storeUser k va src (m + n) = storeUser (storeUser k va src m) (va + m) (fun i => src (m + i)) n := by
  induction n with
  | zero => rfl
  | succ n ih =>
    rw [← Nat.add_assoc,storeUser,storeUser,ih,Nat.add_assoc]

/-- `r` bytes were read at the offset of `f`, and are in memory from `addr` on. -/
structure Taken (dev : Nat) (f : FileId) (addr r : Nat) (k k' : State) : Prop where
  put : Put dev f zeros 0 r k k'
  vm : k'.vm = (storeUser k addr
    (fun i => (k.fs.volume dev).byte (k.fs.icache (k.file f).ip).inum ((k.file f).off + i)) r).vm

theorem Taken.opened {addr : Nat} (taken : Taken dev f addr r k k') (opened : Opened dev f k)
    (inside : (k.file f).off + r ≤ (k.dinode dev f).size.toNat) : Opened dev f k' ∧
      (k'.dinode dev f).size = (k.dinode dev f).size := by
  have within := opened.within
  have opened' := taken.put.opened opened (inside.trans (le_max_left _ _)) (within.trans opened.small)
  refine ⟨opened',BitVec.eq_of_toNat_eq ?_⟩
  have size := taken.put.fs.size
  unfold State.dinode at within ⊢
  rw [taken.put.self,taken.put.fs.calm.inum,size]
  exact max_eq_left within

theorem Taken.trans {addr m : Nat} (first : Taken dev f addr m k k') (second : Taken dev f (addr + m) n k' k'')
    (opened : Opened dev f k) (inside : (k.file f).off + m ≤ (k.dinode dev f).size.toNat) :
    Taken dev f addr (m + n) k k'' := by
  have opened' := (first.opened opened inside).1.within
  have sizes := (first.opened opened inside).2
  have self := first.put.self
  have off : (k.file f).off + m = (k'.file f).off := (congrArg File.off self).symm
  have ip : (k'.file f).ip = (k.file f).ip := by rw [self]
  have bytes : (k'.fs.volume dev).byte (k'.fs.icache (k'.file f).ip).inum =
      (k.fs.volume dev).byte (k.fs.icache (k.file f).ip).inum := by
    funext o
    rw [ip,first.put.fs.calm.inum,first.put.fs.byte,if_neg (by omega)]
  refine ⟨⟨?_,second.put.proc.trans first.put.proc,?_⟩,?_⟩
  · rw [second.put.file,self,first.put.file,Function.update_idem]
    simp only [Nat.add_assoc]
  · have later := second.put.fs.move (o := (k.file f).off) (by
      change _ ≤ (k'.dinode dev f).size.toNat
      omega) opened' zeros
    rw [ip] at later
    exact first.put.fs.trans later
  · rw [second.vm,storeUser_add]
    refine storeUser_vm first.vm ?_ _ fun i _ => ?_
    · rw [first.put.proc,storeUser_proc]
    · rw [bytes,← off,Nat.add_assoc]

theorem fileread_trace (k : State) (f : FileId) (addr n : Nat) : k.fs.trace <:+ (fileread k f addr n).2.fs.trace := by
  unfold fileread
  dsimp only
  split
  · exact List.suffix_refl _
  · split
    · have trace := (ilock_calm k.fs (k.file f).ip).trace.trans
        (readi_mapped (ilock k.fs (k.file f).ip) (k.file f).ip (userMem k addr) (k.file f).off n).trace
      generalize readi (ilock k.fs (k.file f).ip) (k.file f).ip (userMem k addr) (k.file f).off n = result at trace ⊢
      obtain ⟨r,dst,fs⟩ := result
      dsimp only at trace ⊢
      obtain ⟨frame,stored⟩ := storeUser_frame { k with fs := fs } addr dst r.toNat
      rw [stored]
      split
      · exact trace.trans (iunlock_calm _ _).trace
      · exact trace.trans (iunlock_calm _ _).trace
    · exact List.suffix_cons _ _

/-- A read takes what is there, up to the end of the file. -/
theorem fileread_taken (opened : Opened dev f k) (readable : (k.file f).readable = true) (addr : Nat) (width : n < 2147483648)
    (enough : (fileread k f addr n).2.fs.exhausted = false) :
    (fileread k f addr n).1 = (min n ((k.dinode dev f).size.toNat - (k.file f).off) : Nat) ∧
      Taken dev f addr (min n ((k.dinode dev f).size.toNat - (k.file f).off)) k (fileread k f addr n).2 := by
  have fits := opened.within.trans opened.small
  have small := opened.small
  have read := @readi_overlaid dev (k.file f).off n (k.file f).ip k.fs opened.named opened.sound opened.regular opened.within
    (userMem k addr) (by omega) width
  unfold fileread at enough ⊢
  dsimp only at enough ⊢
  rw [if_neg (by rw [readable]; decide),if_pos opened.type] at enough ⊢
  change _ → _ = ((min n ((k.dinode dev f).size.toNat - _) : Nat) : Int) ∧
    (∀ i < min n ((k.dinode dev f).size.toNat - _),_) ∧ _ at read
  generalize readi (ilock k.fs (k.file f).ip) (k.file f).ip (userMem k addr) (k.file f).off n = result at read enough ⊢
  obtain ⟨c,dst,fs⟩ := result
  dsimp only at read enough ⊢
  obtain ⟨frame,stored⟩ := storeUser_frame { k with fs := fs } addr dst c.toNat
  rw [stored] at enough ⊢
  have free : fs.exhausted = false := by
    split at enough
    · exact exhausted_of_suffix (iunlock_calm fs _).trace enough
    · exact exhausted_of_suffix (iunlock_calm fs _).trace enough
  obtain ⟨count,bytes,laid⟩ := read free
  have unlocked := iunlock_named (laid.calm.named laid.sb opened.named)
  have inside : (k.file f).off + min n ((k.dinode dev f).size.toNat - (k.file f).off) ≤ 71680 := by omega
  generalize min n ((k.dinode dev f).size.toNat - (k.file f).off) = r at count bytes inside ⊢
  subst count
  rw [Int.toNat_natCast] at stored ⊢
  have vm := @storeUser_vm _ k { k with fs := fs } _ _ rfl rfl addr bytes
  rw [stored] at vm
  refine ⟨rfl,?_⟩
  split
  · refine ⟨⟨?_,rfl,?_⟩,vm⟩
    · change Function.update k.file f { k.file f with off := u32 ((k.file f).off + r) } = _
      rw [u32_of_lt (by omega)]
    · change Overlaid _ _ _ _ _ _ (iunlock fs _)
      rw [unlocked]
      exact laid
  · obtain rfl : r = 0 := by omega
    refine ⟨⟨?_,rfl,?_⟩,vm⟩
    · exact (Function.update_eq_self f k.file).symm
    · change Overlaid _ _ _ _ _ _ (iunlock fs _)
      rw [unlocked]
      exact laid

/-- Reads into consecutive parts of a buffer, and how many bytes they gave. -/
def filereads (f : FileId) : State → Nat → List Nat → Nat × State
  | k, _, [] => (0,k)
  | k, addr, n :: ns =>
    let (r,k) := fileread k f addr n
    let (total,k) := filereads f k (addr + r.toNat) ns
    (r.toNat + total,k)

theorem filereads_trace (ns : List Nat) (k : State) (addr : Nat) : k.fs.trace <:+ (filereads f k addr ns).2.fs.trace := by
  induction ns generalizing k addr with
  | nil => exact List.suffix_refl _
  | cons n ns ih => exact (fileread_trace k f addr n).trans (ih _ _)

/-- Reads that follow one another are one read. -/
theorem filereads_taken {ns : List Nat} (opened : Opened dev f k) (readable : (k.file f).readable = true) (addr : Nat)
    (width : ns.sum < 2147483648) (enough : (filereads f k addr ns).2.fs.exhausted = false) :
    (filereads f k addr ns).1 = min ns.sum ((k.dinode dev f).size.toNat - (k.file f).off) ∧
      Taken dev f addr (min ns.sum ((k.dinode dev f).size.toNat - (k.file f).off)) k (filereads f k addr ns).2 := by
  induction ns generalizing k addr with
  | nil =>
    rw [List.sum_nil,Nat.zero_min]
    exact ⟨rfl,Put.none (Overlaid.refl opened.sound opened.within _),rfl⟩
  | cons n ns ih =>
    rw [List.sum_cons] at width ⊢
    unfold filereads at enough ⊢
    dsimp only at enough ⊢
    have within := opened.within
    obtain ⟨count,first⟩ := fileread_taken opened readable addr (n := n) (by omega)
      (exhausted_of_suffix (filereads_trace ns _ _) enough)
    generalize fileread k f addr n = result at count first enough ⊢
    obtain ⟨c,k1⟩ := result
    dsimp only at count first enough ⊢
    obtain ⟨opened1,size⟩ := first.opened opened (by omega)
    have off : (k1.file f).off = (k.file f).off + min n ((k.dinode dev f).size.toNat - (k.file f).off) :=
      congrArg File.off first.put.self
    subst count
    rw [Int.toNat_natCast] at enough ⊢
    obtain ⟨total,rest⟩ := ih opened1 (by rw [first.put.self]; exact readable) _ (by omega) enough
    rw [size,off] at total rest
    have whole := first.trans rest opened (by omega)
    have sum : min n ((k.dinode dev f).size.toNat - (k.file f).off) + min ns.sum ((k.dinode dev f).size.toNat -
        ((k.file f).off + min n ((k.dinode dev f).size.toNat - (k.file f).off))) =
        min (n + ns.sum) ((k.dinode dev f).size.toNat - (k.file f).off) := by omega
    rw [sum] at whole
    exact ⟨by rw [total,sum],whole⟩

end read

/-- Chunks do not show. A write through a descriptor is one `writei`, up to the largest file, and
past it the chunks that fit are written; parts of a write that all succeed, and parts of a read, are one call. -/
theorem chunks_invisible (dev : Nat) (f : FileId) (k : State) (opened : Opened dev f k) :
    ((k.file f).writable = true → ∀ addr n, n < 2147483648 → ∃ r k', filewrite k f addr n = .ok (r,k') ∧
      (k'.fs.exhausted = false → (r = n ↔ (k.file f).off + n ≤ 71680) ∧
        ((k.file f).off + n ≤ 71680 →
          k'.file = Function.update k.file f { k.file f with off := (k.file f).off + n } ∧
          ∀ one fs, writei (ilock k.fs (k.file f).ip) (k.file f).ip (userMem k addr) (k.file f).off n = (one,fs) →
            fs.exhausted = false → one = n ∧ SameFiles dev fs k'.fs) ∧
        (71680 < (k.file f).off + n → r = -1 ∧ Put dev f (userMem k addr)
          (1536 * ((71680 - (k.file f).off) / 1536)) (1536 * ((71680 - (k.file f).off) / 1536)) k k'))) ∧
    ((k.file f).writable = true → ∀ addr ns k', filewrites f k addr ns = .ok (true,k') → k'.fs.exhausted = false →
      ∃ r k1, filewrite k f addr ns.sum = .ok (r,k1) ∧ (k1.fs.exhausted = false →
        r = ns.sum ∧ k1.file = k'.file ∧ k1.vm = k'.vm ∧ SameFiles dev k1.fs k'.fs)) ∧
    ((k.file f).readable = true → ∀ addr ns, ns.sum < 2147483648 → (filereads f k addr ns).2.fs.exhausted = false →
      (fileread k f addr ns.sum).2.fs.exhausted = false →
      (fileread k f addr ns.sum).1 = (filereads f k addr ns).1 ∧
        (fileread k f addr ns.sum).2.file = (filereads f k addr ns).2.file ∧
        (fileread k f addr ns.sum).2.vm = (filereads f k addr ns).2.vm ∧
        SameFiles dev (fileread k f addr ns.sum).2.fs (filereads f k addr ns).2.fs) := by
  refine ⟨fun writable addr n width => ?_,fun writable addr ns k' ok enough => ?_,fun readable addr ns width enough enough' => ?_⟩
  · obtain ⟨r,k',ok,_,spec⟩ := filewrite_put opened writable addr n
    refine ⟨r,k',ok,fun enough => ?_⟩
    obtain ⟨_,all,some⟩ := spec enough
    refine ⟨⟨fun success => ?_,fun room => (all room).1⟩,fun room => ⟨(all room).2.file,fun one fs write free => ?_⟩,some⟩
    · by_contra beyond
      have := (some (by omega)).1
      omega
    · have single := chunk_put opened addr room (by rw [write]; exact free)
      rw [write] at single
      exact ⟨single.1,single.2.fs.same (all room).2.fs fun _ _ => rfl⟩
  · obtain ⟨vm,room,put⟩ := filewrites_put opened writable ok enough
    obtain ⟨r,k1,one,_,spec⟩ := filewrite_put opened writable addr ns.sum
    refine ⟨r,k1,one,fun free => ?_⟩
    obtain ⟨vm1,all,_⟩ := spec free
    obtain ⟨count,put1⟩ := all room
    exact ⟨count,put1.file.trans put.file.symm,vm1.trans vm.symm,put1.fs.same put.fs fun _ _ => rfl⟩
  · obtain ⟨total,taken⟩ := filereads_taken opened readable addr width enough
    obtain ⟨count,taken1⟩ := fileread_taken opened readable addr width enough'
    rw [count,total]
    exact ⟨rfl,taken1.put.file.trans taken.put.file.symm,taken1.vm.trans taken.vm.symm,
      taken1.put.fs.same taken.put.fs fun _ _ => rfl⟩

/-- The empty file of `blank`, open for reading and writing. -/
def desk : State where
  fs := blank
  file := fun _ => ⟨.inode,1,true,true,0,0⟩
  vm := ⟨fun _ _ => .zero,fun _ => zeros,[],[]⟩
  proc := ⟨0,0,0,zeros,fun _ => none,0,0,0⟩
  touched := []

theorem desk_opened : Opened 1 0 desk := by
  have copy : desk.dinode 1 0 = (blank.icache 0).toDinode :=
    FsState.volume_locked blank_ready.unique blank_ready.locked blank_ready.place
  refine ⟨rfl,⟨blank_ready.unique,by decide,rfl,blank_ready.place⟩,blank_ready.sound,?_,Nat.zero_le _,?_⟩
  · rw [copy]
    rfl
  · rw [copy]
    decide

/-- Three bytes are written in one chunk. -/
theorem chunks_invisible_desk : ∃ k', filewrite desk 0 0 3 = .ok (3,k') := by
  obtain ⟨r,k',ok,spec⟩ := (chunks_invisible 1 0 desk desk_opened).1 rfl 0 3 (by decide)
  have free : k'.fs.exhausted = false := by
    have result : (filewrite desk 0 0 3).toOption.map (fun r => r.2.fs.exhausted) = some false := by decide
    rw [ok] at result
    exact Option.some.inj result
  have count := ((spec free).1.mpr (by decide))
  rw [count] at ok
  exact ⟨k',ok⟩

end Lxos.Kernel
