import Lxos.Fs.Content
import Lxos.Fs.References

/-! The content law of files. What a file holds is what `readi` returns for its
whole length; a write overlays it and is seen through no other inode. -/
namespace Lxos.Fs
open Lxos.Bytes

/-- All bytes of the file in slot `ip`, as `readi` gives them. -/
def content (st : FsState) (ip : Slot) : Buffer := (readi st ip zeros 0 (st.icache ip).size.toNat).2.1

/-- Reading inode `k` by its number. -/
def readInode (st : FsState) (dev k : Nat) (dst : Buffer) (off n : Nat) :
    Except Fault (Int × Buffer × FsState) := do
  let (ip,st) ← iget st dev k
  .ok (readi (ilock st ip) ip dst off n)

section law
variable {dev : Nat} {ip : Slot} {st st' : FsState} {src : Buffer} {off n : Nat}

theorem Volume.Filled.size {v : Volume} {k : Nat} (filled : v.Filled k) : (v.inode k).size.toNat ≤ 71680 := by
  by_contra large
  have := (filled 140 (by omega)).1
  omega

/-- The byte function of the volume is the content of the file. -/
theorem content_byte (ready : Ready dev ip st) (regular : (st.icache ip).type ≠ tDev)
    (filled : (st.volume dev).Filled (st.icache ip).inum)
    (enough : st.exhausted = false) {i : Nat} (h : i < (st.icache ip).size.toNat) :
    content st ip i = (st.volume dev).byte (st.icache ip).inum i := by
  have copy := FsState.volume_locked ready.unique ready.locked ready.place
  have bound := filled.size
  rw [copy] at bound
  have idle := readi_idle ready filled zeros 0 (n := (st.icache ip).size.toNat) (by omega)
  obtain ⟨_,value⟩ := readi_spec ready zeros 0 (st.icache ip).size.toNat (by rw [idle.exhausted]; exact enough)
  have whole : u32 (0 + (st.icache ip).size.toNat) = (st.icache ip).size.toNat := by
    rw [Nat.zero_add]
    exact u32_of_lt (by omega)
  unfold readResult at value
  rw [copy,if_neg regular,whole,if_neg (by omega)] at value
  have bytes := congrArg Prod.snd value
  simp only [lt_irrefl,if_false] at bytes
  unfold content
  rw [bytes]
  have inside : blit zeros 0 (st.icache ip).size.toNat
      (fun i => (st.volume dev).byte (st.icache ip).inum (0 + i)) (0 + i) =
    (st.volume dev).byte (st.icache ip).inum (0 + i) := blit_inside h
  simpa only [Nat.zero_add] using inside

theorem readi_bytes (ready : Ready dev ip st) (regular : (st.icache ip).type ≠ tDev) (enough : st.exhausted = false)
    (dst : Buffer) {o m : Nat} (idle : Idle st (readi st ip dst o m).2.2) (inside : o ≤ (st.icache ip).size.toNat)
    (wrap : o + m < 4294967296) (small : min m ((st.icache ip).size.toNat - o) < 2147483648) :
    (readi st ip dst o m).1 = min m ((st.icache ip).size.toNat - o) ∧
      (readi st ip dst o m).2.1 = blit dst 0 (min m ((st.icache ip).size.toNat - o))
        (fun i => (st.volume dev).byte (st.icache ip).inum (o + i)) := by
  have copy := FsState.volume_locked ready.unique ready.locked ready.place
  obtain ⟨_,value⟩ := readi_spec ready dst o m (by rw [idle.exhausted]; exact enough)
  unfold readResult at value
  rw [copy,if_neg regular,u32_of_lt wrap,if_neg (by omega)] at value
  have amount : (if o + m > (st.icache ip).size.toNat then (st.icache ip).size.toNat - o else m) =
      min m ((st.icache ip).size.toNat - o) := by
    split <;> omega
  rw [amount] at value
  obtain ⟨count,bytes⟩ := Prod.mk.inj value
  exact ⟨by rw [count,int32_of_lt small],bytes⟩

theorem readi_content (ready : Ready dev ip st) (regular : (st.icache ip).type ≠ tDev)
    (filled : (st.volume dev).Filled (st.icache ip).inum) (enough : st.exhausted = false)
    (dst : Buffer) {o m : Nat} (inside : o ≤ (st.icache ip).size.toNat) (wrap : o + m < 4294967296) :
    (readi st ip dst o m).1 = min m ((st.icache ip).size.toNat - o) ∧
      (readi st ip dst o m).2.1 = blit dst 0 (min m ((st.icache ip).size.toNat - o))
        (fun i => (st.volume dev).byte (st.icache ip).inum (o + i)) := by
  have bound := filled.size
  rw [FsState.volume_locked ready.unique ready.locked ready.place] at bound
  have idle := @readi_idle dev ip st ready filled dst o m (by omega)
  exact readi_bytes ready regular enough dst idle inside wrap (by omega)

theorem readInode_result {k : Nat} (unique : st.Unique) (place : k < st.sb.slots)
    (sound : (st.volume dev).Sound) {dst : Buffer} {o m : Nat} {r : Int × Buffer × FsState}
    (ok : readInode st dev k dst o m = .ok r) (free : r.2.2.exhausted = false) :
    (r.1,r.2.1) = readResult ((st.volume dev).inode k) ((st.volume dev).byte k) dst o m := by
  unfold readInode at ok
  cases found : iget st dev k with
  | error e => simp [found,bind,Except.bind] at ok
  | ok slot =>
    obtain ⟨t,st1⟩ := slot
    simp only [found,bind,Except.bind,Except.ok.injEq] at ok
    have got := iget_got found
    have same := got.volume unique dev
    have names := got.names
    have named : Named dev t st1 := ⟨got.unique unique,names.1,names.2.1,by rw [names.2.2,got.sb]; exact place⟩
    have ready := ilock_ready named (by rw [same]; exact sound)
    have number : ((ilock st1 t).icache t).inum = k := by
      rw [(ilock_calm st1 t).inum]
      exact names.2.2
    subst ok
    obtain ⟨_,value⟩ := readi_spec ready dst o m free
    rw [value,(ilock_loaded named).volume named,same,number]

theorem Wrote.other (wrote : Wrote dev ip src off n st st') (ready : Ready dev ip st) {k : Nat}
    (place : k < st.sb.slots) (distinct : k ≠ (st.icache ip).inum) {dst : Buffer} {o m : Nat}
    {r r' : Int × Buffer × FsState} (before : readInode st dev k dst o m = .ok r)
    (after : readInode st' dev k dst o m = .ok r') (free : r.2.2.exhausted = false)
    (free' : r'.2.2.exhausted = false) : (r'.1,r'.2.1) = (r.1,r.2.1) := by
  have ready' := wrote.ready ready
  have sb : st'.sb = st.sb := wrote.frame.sb
  rw [readInode_result ready.unique place ready.sound before free,
    readInode_result ready'.unique (by rw [sb]; exact place) ready'.sound after free',
    wrote.frame.other k distinct,wrote.frame.byte k distinct]

/-- `writei` refuses what starts past the end or does not fit, and otherwise
overlays the content and nothing else. Only the bitmap, the dinode and the
indirect block of the file differ among the metadata. -/
theorem writei_content (dev : Nat) (ip : Slot) (st : FsState) (src : Buffer) (off n : Nat)
    (ready : Ready dev ip st) (regular : (st.icache ip).type ≠ tDev)
    (filled : (st.volume dev).Filled (st.icache ip).inum) (width : n < 4294967296)
    (enough : (writei st ip src off n).2.exhausted = false) :
    let size := (st.icache ip).size.toNat
    let refused := off > size ∨ 4294967296 ≤ off + n ∨ 71680 < off + n
    let st' := (writei st ip src off n).2
    let size' := (st'.icache ip).size.toNat
    ((writei st ip src off n).1 = -1 ↔ refused) ∧
    (refused → writei st ip src off n = (-1,st)) ∧
    (¬refused →
      (writei st ip src off n).1 = n ∧ size' = max size (off + n) ∧
      (∀ dst o m, o ≤ size' → o + m < 4294967296 →
        (readi st' ip dst o m).1 = min m (size' - o) ∧
        (readi st' ip dst o m).2.1 = blit dst 0 (min m (size' - o)) (fun i =>
          if off ≤ o + i ∧ o + i < off + n then src (o + i - off) else content st ip (o + i))) ∧
      (∀ k, k < st.sb.slots → k ≠ (st.icache ip).inum → ∀ dst o m r r',
        readInode st dev k dst o m = .ok r → readInode st' dev k dst o m = .ok r' →
        r.2.2.exhausted = false → r'.2.2.exhausted = false → (r'.1,r'.2.1) = (r.1,r.2.1)) ∧
      (∀ s, s ≠ ip → st'.icache s = st.icache s) ∧ st'.sb = st.sb ∧
      (∀ c < st.sb.bmapstart, ∀ o, ¬(c = st.sb.iblock (st.icache ip).inum ∧
          inodeOffset (st.icache ip).inum ≤ o ∧ o < inodeOffset (st.icache ip).inum + 64) →
        st'.disk dev c o = st.disk dev c o) ∧
      ∀ k, k ≠ (st.icache ip).inum → (st.volume dev).ref (k,140) ≠ 0 →
        st'.disk dev ((st.volume dev).ref (k,140)) = st.disk dev ((st.volume dev).ref (k,140))) := by
  intro size refused st' size'
  have refuse (bad : refused) : writei st ip src off n = (-1,st) :=
    writei_refused regular width (by omega)
  have accept (good : ¬refused) : (writei st ip src off n).1 = n ∧ Wrote dev ip src off n st st' :=
    writei_wrote ready regular filled (by omega) (by omega) enough
  refine ⟨⟨fun result => ?_,fun bad => by rw [refuse bad]⟩,refuse,fun good => ?_⟩
  · by_contra good
    rw [(accept good).1] at result
    omega
  obtain ⟨result,wrote⟩ := accept good
  have ready' := wrote.ready ready
  have before : st.exhausted = false := exhausted_of_suffix wrote.change.trace enough
  have inum := wrote.change.inum ip
  have copy := FsState.volume_locked ready.unique ready.locked ready.place
  have copy' := FsState.volume_locked ready'.unique ready'.locked ready'.place
  rw [inum] at copy'
  have sizes : size' = max size (off + n) := by
    have grown := wrote.size
    rw [copy,copy'] at grown
    exact grown
  have type : (st'.icache ip).type = (st.icache ip).type := by
    obtain ⟨addrs,size,attrs⟩ := wrote.frame.attrs
    rw [copy,copy'] at attrs
    rw [attrs]
  refine ⟨result,sizes,?_,?_,wrote.change.other,wrote.frame.sb,wrote.frame.table,wrote.frame.indirect⟩
  · intro dst o m inside wrap
    obtain ⟨count,bytes⟩ := readi_content ready' (by rw [type]; exact regular)
      (by rw [inum]; exact wrote.filled) enough dst inside wrap
    refine ⟨count,bytes.trans (blit_congr fun i h => ?_)⟩
    rw [inum,wrote.byte]
    split
    · rfl
    · rename_i outside
      have old : o + i < size := by omega
      exact (content_byte ready regular filled before old).symm
  · intro k place distinct dst o m r r' before after free free'
    exact wrote.other ready place distinct before after free free'

end law

/-- A disk of 16 blocks with an empty file, inode 1, open in slot 0. -/
def blank : FsState where
  disk := fun _ b => if b = 3 then blit zeros 0 1 (fun _ => 15) else zeros
  sb := ⟨16,12,8,0,2,2,3⟩
  icache := fun s =>
    if s = 0 then ⟨{ Dinode.zero with type := tFile,nlink := 1 },1,1,1,true⟩ else ⟨Dinode.zero,0,0,0,false⟩
  stack := zeros
  trace := []

theorem blank_ref (p : Nat × Nat) : (blank.volume 1).ref p = 0 := by
  have addr (k i : Nat) : ((blank.volume 1).inode k).addr i = 0 := by
    by_cases inside : k < blank.sb.slots
    · rw [FsState.volume_inode inside]
      unfold FsState.dinode
      split
      · rename_i s _
        have same : (blank.icache s).toDinode.addrs = Dinode.zero.addrs := by
          by_cases first : s = 0 <;> simp [blank,first,Dinode.zero]
        simp only [Dinode.addr,same]
        exact Dinode.addr_zero i
      · have range : blank.sb.iblock k ≠ 3 := by
          have bound : k < 8 := inside
          have block : blank.sb.iblock k = 2 := by
            change (k / 8 + 2) % 4294967296 = 2
            omega
          omega
        have zero : blank.disk 1 (blank.sb.iblock k) = zeros := if_neg range
        rw [FsState.table,zero]
        exact Dinode.addr_zero i
    · rw [FsState.volume_rest (by omega)]
      exact Dinode.addr_zero i
  unfold Volume.ref Dinode.refAt
  simp only [addr,if_true,ite_self]

theorem blank_ready : Ready 1 0 blank := by
  have only (s : Slot) (h : 0 < (blank.icache s).ref) : s = 0 := by
    by_contra other
    simp [blank,other] at h
  have marked : ∀ b < 4, (blank.disk 1 (blank.sb.bblock b) (b % bpb / 8)).getLsbD (b % 8) = true := by decide
  refine ⟨fun s t hs ht _ _ => (only s hs).trans (only t ht).symm,⟨by decide,rfl,rfl⟩,by decide,?_⟩
  refine ⟨⟨by decide,by decide,by decide,by decide,by decide⟩,marked,?_,?_,?_⟩
  · exact fun p h => absurd (blank_ref p) h
  · exact fun p h => absurd (blank_ref p) h
  · exact fun p _ h => absurd (blank_ref p) h

/-- Three bytes are written to the empty file, which takes its first block. -/
theorem writei_content_blank : (writei blank 0 (fun _ => 7) 0 3).1 = 3 ∧
    ((writei blank 0 (fun _ => 7) 0 3).2.icache 0).size.toNat = 3 := by
  have law := writei_content 1 0 blank (fun _ => 7) 0 3 blank_ready (by decide)
    (fun bn h => absurd h (by
      have copy := FsState.volume_locked blank_ready.unique blank_ready.locked blank_ready.place
      rw [copy]
      exact Nat.not_lt_zero _)) (by decide) (by decide)
  have accepted := law.2.2 (by decide)
  exact ⟨accepted.1,accepted.2.1⟩

end Lxos.Fs
