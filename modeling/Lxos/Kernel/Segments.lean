import Lxos.Kernel.Contents
import Lxos.Fs.Scan

/-! What `loaduvm` and the loop over the program headers put into a new address space:
the segments of the file, one over the other, on pages that were zero. -/
namespace Lxos.Kernel
open Lxos.Bytes Lxos.Fs Lxos.Outcome Lxos.Inventory

/-- The headers that `exec` reads from `off` on, of a file with the bytes `f`. -/
def headers (f : Buffer) : Nat → Nat → List Proghdr
  | 0, _ => []
  | n+1, off => Proghdr.decode (fun i => f (off + i)) :: headers f n (u32 (off + proghdrSize))

/-- A segment is copied to its address. -/
def loadSegment (f b : Buffer) (ph : Proghdr) : Buffer :=
  if ph.type = 1 then blit b ph.vaddr ph.filesz fun i => f (ph.off + i) else b

/-- The segments, copied in order. -/
def segments (f b : Buffer) (phs : List Proghdr) : Buffer := phs.foldl (loadSegment f) b

section read
variable {ip : Slot} {st : FsState}

theorem loaduvmLoop_trace {d : Page} {addr offset sz : Nat} (fuel : Nat) (m : Vm) (i : Nat) {r : Bool × FsState × Vm}
    (ok : loaduvmLoop d addr ip offset sz fuel st m i = .ok r) : st.trace <:+ r.2.1.trace := by
  induction fuel generalizing st m i with
  | zero => cases ok
  | succ fuel ih =>
    unfold loaduvmLoop at ok
    split at ok
    · split at ok
      · cases ok
      · rename_i pgtab j _
        dsimp only at ok
        have read := (readi_mapped st ip (m.frame (m.table pgtab j).page) (u32 (offset + i)) (min (sz - i) pgsize)).trace
        split at ok
        · obtain rfl := Except.ok.inj ok
          exact read
        · exact read.trans (ih _ _ ok)
    · obtain rfl := Except.ok.inj ok
      exact List.suffix_refl _

theorem loadProgram_trace {d : Page} (phnum : Nat) (m : Vm) (sz off : Nat) {r : Option Nat × FsState × Vm}
    (ok : loadProgram d ip phnum st m sz off = .ok r) : st.trace <:+ r.2.1.trace := by
  induction phnum generalizing st m sz off with
  | zero =>
    obtain rfl := Except.ok.inj ok
    exact List.suffix_refl _
  | succ phnum ih =>
    unfold loadProgram at ok
    have read := (readi_mapped st ip st.stack off proghdrSize).trace
    generalize readi st ip st.stack off proghdrSize = result at ok read
    obtain ⟨r1,b,st1⟩ := result
    dsimp only at ok read
    split at ok
    · obtain rfl := Except.ok.inj ok
      exact read
    split at ok
    · exact read.trans (ih _ _ _ ok)
    split at ok
    · obtain rfl := Except.ok.inj ok
      exact read
    split at ok
    · obtain rfl := Except.ok.inj ok
      exact read
    split at ok
    · cases ok
    split at ok
    · obtain rfl := Except.ok.inj ok
      exact read
    split at ok
    · obtain rfl := Except.ok.inj ok
      exact read
    split at ok
    · cases ok
    · rename_i loaded
      obtain rfl := Except.ok.inj ok
      exact read.trans (loaduvmLoop_trace _ _ _ loaded)
    · rename_i loaded
      exact (read.trans (loaduvmLoop_trace _ _ _ loaded)).trans (ih _ _ _ ok)

end read

section segments
variable {dev : Nat} {ip : Slot} {fs fs' : FsState} {m m' m₀ : Vm} {d : Page} {n c addr off sz s : Nat} {b f : Buffer}

theorem next_chunk (more : c * 4096 < sz) : c * 4096 + min (sz - c * 4096) 4096 = min sz ((c + 1) * 4096) := by
  rw [Nat.succ_mul]
  omega

theorem loaduvmLoop_ended {fuel : Nat} (done : sz ≤ c * 4096)
    (ok : loaduvmLoop d addr ip off sz (fuel + 1) fs m (c * 4096) = .ok (true,fs',m')) : fs = fs' ∧ m = m' := by
  unfold loaduvmLoop at ok
  rw [if_neg (Nat.not_lt.mpr done)] at ok
  exact Prod.mk.inj (Prod.mk.inj (Except.ok.inj ok)).2

/-- One page of a segment after the other. -/
theorem loaduvmLoop_loads (aligned : addr % 4096 = 0) (inside : addr + sz ≤ n * 4096) (fuel : Nat)
    (bytes : (fs.volume dev).byte (fs.icache ip).inum = f) (ready : Ready dev ip fs)
    (holds : Contents m d n (fun _ => true) (blit b addr (min sz (c * 4096)) fun i => f (off + i)))
    (place : c * 4096 < sz → off + c * 4096 < 4294967296) (enough : sz ≤ (c + fuel) * 4096)
    (ok : loaduvmLoop d addr ip off sz (fuel + 1) fs m (c * 4096) = .ok (true,fs',m'))
    (clear : (fs.volume dev).Filled (fs.icache ip).inum ∨ fs'.exhausted = false) :
    Seen dev ip fs fs' ∧ Fills d m m' ∧ Contents m' d n (fun _ => true) (blit b addr sz fun i => f (off + i)) := by
  have bound := holds.bound
  induction fuel generalizing fs m c with
  | zero =>
    have done : sz ≤ c * 4096 := enough
    obtain ⟨rfl,rfl⟩ := loaduvmLoop_ended done ok
    rw [min_eq_left done] at holds
    exact ⟨Seen.refl ready,Fills.refl d m,holds⟩
  | succ fuel ih =>
    rcases Nat.lt_or_ge (c * 4096) sz with more | done
    swap
    · obtain ⟨rfl,rfl⟩ := loaduvmLoop_ended done ok
      rw [min_eq_left done] at holds
      exact ⟨Seen.refl ready,Fills.refl d m,holds⟩
    unfold loaduvmLoop at ok
    have page : (addr + c * 4096) / 4096 < n := by omega
    have whole : (addr + c * 4096) / 4096 * 4096 = addr + c * 4096 := by omega
    have at_ : u32 (addr + c * 4096) = (addr + c * 4096) / 4096 * 4096 := by
      rw [whole]
      exact u32_of_lt (by omega)
    have from_ : u32 (off + c * 4096) = off + c * 4096 := u32_of_lt (place more)
    have next : u32 (c * 4096 + pgsize) = (c + 1) * 4096 := by
      have width : c * 4096 + 4096 < 4294967296 := Nat.lt_of_lt_of_le (Nat.add_lt_add_right more 4096) (by omega)
      exact (u32_of_lt width).trans (Nat.succ_mul c 4096).symm
    have remains : c + 1 + fuel = c + (fuel + 1) := by omega
    have low : (addr + c * 4096) / 4096 < 1048576 := by omega
    have table := table_of_pte (holds.present page)
    have entry := (pte_present table).symm
    have found := @walkpgdir_found m d ((addr + c * 4096) / 4096 * 4096) (by rw [pdx_page low]; exact table)
    rw [pdx_page low,ptx_page] at found
    rw [if_pos more,at_,found,from_,next] at ok
    dsimp only at ok
    rw [entry] at ok
    rw [min_eq_right more.le] at holds
    have count : 0 < min (sz - c * 4096) 4096 := by omega
    split at ok
    · cases ok
    rename_i full
    have later := loaduvmLoop_trace _ _ _ ok
    obtain ⟨seen,reach,copy⟩ := readi_whole ready (m.frame (m.pte d ((addr + c * 4096) / 4096)).page) (off + c * 4096) count
      (by omega) (clear.imp_right (exhausted_of_suffix later)) (not_not.mp full)
    rw [bytes] at copy
    generalize readi fs ip (m.frame (m.pte d ((addr + c * 4096) / 4096)).page) (off + c * 4096)
      (min (sz - c * 4096) pgsize) = result at seen copy ok later
    obtain ⟨r,dst,fs1⟩ := result
    dsimp only at seen copy ok later
    have stored := holds.setFrame (o := 0) page (by omega : 0 + min (sz - c * 4096) 4096 ≤ 4096)
      fun i => f (off + c * 4096 + i)
    have together : blit (blit b addr (c * 4096) fun i => f (off + i)) ((addr + c * 4096) / 4096 * 4096 + 0)
        (min (sz - c * 4096) 4096) (fun i => f (off + c * 4096 + i)) =
        blit b addr (min sz ((c + 1) * 4096)) fun i => f (off + i) := by
      rw [Nat.add_zero,whole,← next_chunk more,← blit_append]
      simp only [Nat.add_assoc]
    rw [together] at stored
    have fills := setFrame_fills (holds.held page) dst
    rw [copy] at fills ok
    obtain ⟨seen2,fills2,loaded⟩ := ih ((congrFun seen.byte _).trans (by rw [seen.inum]; exact bytes)) (seen.grown.ready ready)
      stored (fun rest => by omega) (by rw [remains]; exact enough) ok (seen.clear clear)
    exact ⟨seen.trans seen2,fills.trans fills2,loaded⟩

theorem loaduvm_loads (aligned : addr % 4096 = 0) (inside : addr + sz ≤ n * 4096) (start : off < 4294967296)
    (bytes : (fs.volume dev).byte (fs.icache ip).inum = f) (ready : Ready dev ip fs) (holds : Contents m d n (fun _ => true) b)
    (ok : loaduvm fs m d addr ip off sz = .ok (true,fs',m'))
    (clear : (fs.volume dev).Filled (fs.icache ip).inum ∨ fs'.exhausted = false) :
    Seen dev ip fs fs' ∧ Fills d m m' ∧ Contents m' d n (fun _ => true) (blit b addr sz fun i => f (off + i)) := by
  have bound := holds.bound
  unfold loaduvm at ok
  refine loaduvmLoop_loads (c := 0) aligned inside 1048576 bytes ready ?_ (fun _ => start) (by omega) ok clear
  rw [Nat.zero_mul,Nat.min_zero,blit_zero]
  exact holds

theorem Proghdr.decode_congr {c : Buffer} (same : ∀ i < 32, b i = c i) : Proghdr.decode b = Proghdr.decode c := by
  have word (o : Nat) (low : o + 4 ≤ 32) : le32 b o = le32 c o := le32_congr fun i small => same (o + i) (by omega)
  unfold Proghdr.decode
  rw [word 0 (by decide),word 4 (by decide),word 8 (by decide),word 16 (by decide),word 20 (by decide)]

/-- The segments lie in what was allocated for them. -/
def Fit (s : Nat) (phs : List Proghdr) : Prop :=
  ∀ ph ∈ phs, ph.type = 1 → ph.vaddr + ph.filesz ≤ s

/-- The loop over the program headers, when it comes to its end. -/
theorem loadProgram_loads (single : m₀.freelist.Nodup) (phnum : Nat) (building : Building m₀ d m)
    (bytes : (fs.volume dev).byte (fs.icache ip).inum = f) (ready : Ready dev ip fs)
    (holds : Contents m d (pages sz) (fun _ => true) b) (limit : sz < 2147483648) (start : off < 4294967296)
    (ok : loadProgram d ip phnum fs m sz off = .ok (some s,fs',m'))
    (clear : (fs.volume dev).Filled (fs.icache ip).inum ∨ fs'.exhausted = false) :
    s < 2147483648 ∧ sz ≤ s ∧ Building m₀ d m' ∧ Fit s (headers f phnum off) ∧
      Contents m' d (pages s) (fun _ => true) (segments f b (headers f phnum off)) := by
  induction phnum generalizing fs m b sz off with
  | zero =>
    obtain ⟨same,rest⟩ := Prod.mk.inj (Except.ok.inj ok)
    obtain ⟨_,rfl⟩ := Prod.mk.inj rest
    obtain rfl := Option.some.inj same
    exact ⟨limit,le_refl _,building,fun ph inside => absurd inside List.not_mem_nil,holds⟩
  | succ phnum ih =>
    unfold loadProgram at ok
    have whole := readi_whole (n := 32) ready fs.stack off (by decide) (by decide)
    generalize readi fs ip fs.stack off proghdrSize = result at ok whole
    obtain ⟨r,b1,fs1⟩ := result
    dsimp only at ok whole
    split at ok
    · cases ok
    rename_i full
    have read (later : fs1.trace <:+ fs'.trace) : Seen dev ip fs fs1 ∧
        Proghdr.decode b1 = Proghdr.decode fun i => f (off + i) := by
      obtain ⟨seen,_,copy⟩ := whole (clear.imp_right (exhausted_of_suffix later)) (not_not.mp full)
      refine ⟨seen,Proghdr.decode_congr fun i small => ?_⟩
      have copied := @blit_inside fs.stack (fun i => f (off + i)) 0 32 i small
      rw [copy,bytes]
      rwa [Nat.zero_add] at copied
    have next : u32 (off + proghdrSize) < 4294967296 := u32_lt _
    have width : (Proghdr.decode b1).vaddr < 4294967296 ∧ (Proghdr.decode b1).off < 4294967296 ∧
        (Proghdr.decode b1).memsz < 4294967296 := ⟨(le32 b1 8).isLt,(le32 b1 4).isLt,(le32 b1 20).isLt⟩
    unfold headers
    split at ok
    · rename_i other
      obtain ⟨seen,same⟩ := read (loadProgram_trace _ _ _ _ ok)
      rw [same] at other
      have bytes1 : (fs1.volume dev).byte (fs1.icache ip).inum = f := by
        rw [seen.byte,seen.inum]
        exact bytes
      obtain ⟨top,more,built,fit,held⟩ := ih building bytes1 (seen.grown.ready ready) holds limit next ok (seen.clear clear)
      refine ⟨top,more,built,fun ph inside => ?_,?_⟩
      · rcases List.mem_cons.mp inside with rfl | later
        · exact fun load => absurd load other
        · exact fit ph later
      · rw [segments,List.foldl_cons,loadSegment,if_neg other]
        exact held
    rename_i load
    split at ok
    · cases ok
    rename_i large
    split at ok
    · cases ok
    rename_i wrap
    split at ok
    · cases ok
    rename_i t m1 grown
    split at ok
    · cases ok
    rename_i some_size
    split at ok
    · cases ok
    rename_i aligned
    split at ok
    · cases ok
    · cases ok
    rename_i fs2 m2 loaded
    have later := loadProgram_trace _ _ _ _ ok
    have later1 : fs1.trace <:+ fs2.trace := loaduvmLoop_trace _ _ _ loaded
    obtain ⟨seen,same⟩ := read (later1.trans later)
    rw [same] at load large wrap grown aligned loaded width
    generalize Proghdr.decode (fun i => f (off + i)) = ph at load large wrap grown aligned loaded width ⊢
    have bytes1 : (fs1.volume dev).byte (fs1.icache ip).inum = f := by
      rw [seen.byte,seen.inum]
      exact bytes
    have sum : u32 (ph.vaddr + ph.memsz) = ph.vaddr + ph.memsz := by
      unfold u32 at wrap ⊢
      omega
    rw [sum] at grown
    obtain ⟨top,size,works,sealing,held⟩ := holds.alloc rfl (building.nodup single) limit grown some_size
    have inside : ph.vaddr + ph.filesz ≤ pages t * 4096 := by
      unfold pages
      omega
    obtain ⟨seen2,fills,filled⟩ := loaduvm_loads (not_not.mp aligned) inside width.2.1 bytes1 (seen.grown.ready ready) held loaded
      ((seen.clear clear).imp_right (exhausted_of_suffix later))
    have both := seen.trans seen2
    have bytes2 : (fs2.volume dev).byte (fs2.icache ip).inum = f := by
      rw [both.byte,both.inum]
      exact bytes
    obtain ⟨top2,more2,built,fit,held2⟩ := ih ((building.step works sealing).fills fills) bytes2 (both.grown.ready ready) filled
      top next ok (both.clear clear)
    have fits : ph.vaddr + ph.filesz ≤ s := by omega
    refine ⟨top2,(size ▸ le_max_left _ _ : sz ≤ t).trans more2,built,fun ph' member => ?_,?_⟩
    · rcases List.mem_cons.mp member with rfl | later
      · exact fun _ => fits
      · exact fit ph' later
    · rw [segments,List.foldl_cons,loadSegment,if_pos (not_not.mp load)]
      exact held2

end segments

end Lxos.Kernel
