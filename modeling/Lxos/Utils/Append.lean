import Lxos.Utils.Layout
import Lxos.Fs.Content

/-! What `iappend` changes: the bytes after the end of one file. The address of a
block is found first, and a block that is missing is taken. -/
namespace Lxos.Utils
open Lxos.Bytes Lxos.Fs

/-- Inode `k` got the blocks at the positions `T`; no file changes its content. -/
structure Extended (k : Nat) (T : Nat → Prop) (s s' : Mkfs) (v w : Volume) : Prop where
  laid : Laid s' w
  frame : Volume.Frame (· < s.freeblock) (· < s'.freeblock) k v w
  attrs : ∃ addrs, w.inode k = { v.inode k with addrs := addrs }
  byte : w.byte = v.byte
  refs : ∀ q, w.ref (k,q) ≠ 0 ↔ v.ref (k,q) ≠ 0 ∨ T q
  low : ∀ c < 59, s'.sectors c = s.sectors c
  next : s'.freeinode = s.freeinode
  grow : s.freeblock ≤ s'.freeblock

section extended
variable {k p : Nat} {T T' : Nat → Prop} {s s' s'' : Mkfs} {v w x : Volume}

theorem Extended.refl (laid : Laid s v) (present : ∀ q, T q → v.ref (k,q) ≠ 0) : Extended k T s s v v where
  laid := laid
  frame := Volume.Frame.refl _ _ _
  attrs := ⟨_,rfl⟩
  byte := rfl
  refs := fun q => ⟨Or.inl,fun h => h.elim id (present q)⟩
  low := fun _ _ => rfl
  next := rfl
  grow := le_refl _

theorem Extended.trans (first : Extended k T s s' v w) (second : Extended k T' s' s'' w x) :
    Extended k (fun q => T q ∨ T' q) s s'' v x where
  laid := second.laid
  frame := first.frame.trans second.frame
  attrs := by
    obtain ⟨a,ha⟩ := first.attrs
    obtain ⟨b,hb⟩ := second.attrs
    exact ⟨b,by rw [hb,ha]⟩
  byte := second.byte.trans first.byte
  refs := fun q => by rw [second.refs,first.refs,or_assoc]
  low := fun c h => (second.low c h).trans (first.low c h)
  next := second.next.trans first.next
  grow := first.grow.trans second.grow

theorem Extended.claim (laid : Laid s v)
    (claim : Volume.Claim (· < s.freeblock) (· < s.freeblock + 1) k p s.freeblock v w)
    (room : s.freeblock < 1000) (block : w.block = s'.sectors) (size : s'.size = 1000)
    (next : s'.freeblock = s.freeblock + 1) (number : s'.freeinode = s.freeinode)
    (low : ∀ c < 59, s'.sectors c = s.sectors c) : Extended k (· = p) s s' v w where
  laid := laid.claim claim room block size next
  frame := next ▸ claim.frame laid.owned
  attrs := claim.attrs
  byte := claim.byte laid.owned
  refs := by
    intro q
    rw [claim.ref]
    by_cases here : q = p
    · have := laid.low
      rw [here,Function.update_self]
      exact iff_of_true (by omega) (Or.inr rfl)
    · rw [Function.update_of_ne (by simpa using here)]
      simp only [here,or_false]
  low := low
  next := number
  grow := by omega

theorem Extended.weaken (extended : Extended k T s s' v w) (same : ∀ q, T q ↔ T' q) : Extended k T' s s' v w :=
  ⟨extended.laid,extended.frame,extended.attrs,extended.byte,fun q => (extended.refs q).trans (or_congr_right (same q)),
    extended.low,extended.next,extended.grow⟩

end extended

section block
variable {k : Nat} {s s' : Mkfs} {v : Volume} {x fbn : Nat} {din din' : Dinode} {buf : Block}

theorem rsect_some (found : rsect s x = some buf) : position x < s.size ∧ buf = s.sectors (position x) := by
  unfold rsect at found
  split at found
  · rename_i bound
    exact ⟨bound,(Option.some.inj found).symm⟩
  · cases found

theorem rsect_small (found : rsect s x = some buf) (size : s.size = 1000) (small : x < 8388608) :
    x < 1000 ∧ buf = s.sectors x := by
  have result := rsect_some found
  rw [position_of_lt small,size] at result
  exact result

theorem take_next (high : s.freeblock ≤ 1000) : (take s).freeblock = s.freeblock + 1 :=
  u32_of_lt (by omega)

/-- The indirect block, which is taken where there is none. -/
theorem indirect_extended (laid : Laid s v) (place : k < 208)
    {r : Mkfs × Dinode} (step : r = if (v.inode k).addr ndirect = 0 then
      (take s,(v.inode k).setAddr ndirect s.freeblock) else (s,v.inode k))
    (found : rsect r.1 (r.2.addr ndirect) = some buf) :
    ∃ w, Extended k (· = 140) s r.1 v w ∧ w.inode k = r.2 ∧ w.ref (k,140) = r.2.addr ndirect ∧
      w.ref (k,140) ≠ 0 ∧ buf = w.block (w.ref (k,140)) := by
  have inside : k < v.sb.slots := by rw [laid.sb]; exact place
  have indirect := Volume.ref_indirect v inside
  have high := laid.high
  by_cases absent : (v.inode k).addr ndirect = 0
  · rw [if_pos absent] at step
    subst step
    have addr := Dinode.addr_setAddr (v.inode k) ndirect ndirect s.freeblock (by decide) (by omega)
    rw [if_pos rfl] at addr
    dsimp only at found
    rw [addr] at found
    obtain ⟨room,rfl⟩ := rsect_small found laid.size (by omega)
    have claim := laid.claim_addr place room (p := 140) (Or.inr ⟨rfl,rfl⟩) (indirect.trans absent)
    have low := laid.low
    refine ⟨_,Extended.claim laid claim room laid.block laid.size (take_next high) rfl (fun _ _ => rfl),
      Function.update_self _ _ _,?_,?_,?_⟩
    · rw [claim.ref,Function.update_self,addr]
    · rw [claim.ref,Function.update_self]
      omega
    · rw [claim.ref,Function.update_self]
      exact (congrFun laid.block _).symm
  · rw [if_neg absent] at step
    subst step
    have there : v.ref (k,140) ≠ 0 := by rw [indirect]; exact absent
    have range := (laid.range there).2
    dsimp only at found
    change rsect s ((v.inode k).addr 12) = _ at found
    rw [← indirect] at found
    obtain ⟨_,rfl⟩ := rsect_small found laid.size (by omega)
    refine ⟨v,Extended.refl laid ?_,rfl,indirect,there,(congrFun laid.block _).symm⟩
    rintro q rfl
    exact there

/-- `x` is the block at `fbn`; that it can be read tells that it is on the disk. -/
theorem blockFor_spec (laid : Laid s v) (place : k < 208) (index : fbn < 140)
    (ok : blockFor s (v.inode k) fbn = some (x,s',din')) (found : rsect s' x = some buf) :
    ∃ w, Extended k (fun q => q = fbn ∨ q = 140 ∧ 12 ≤ fbn) s s' v w ∧ w.inode k = din' ∧ w.ref (k,fbn) = x ∧
      w.ref (k,fbn) ≠ 0 ∧ buf = s'.sectors x := by
  have inside : k < v.sb.slots := by rw [laid.sb]; exact place
  have high := laid.high
  have low := laid.low
  unfold blockFor at ok
  by_cases direct : fbn < ndirect
  · have only (q : Nat) : q = fbn ↔ q = fbn ∨ q = 140 ∧ 12 ≤ fbn := by
      change fbn < 12 at direct
      omega
    have value := Volume.ref_direct v inside direct
    rw [if_pos direct] at ok
    by_cases absent : (v.inode k).addr fbn = 0
    · rw [if_pos absent] at ok
      cases ok
      obtain ⟨room,rfl⟩ := rsect_small found laid.size (by omega)
      have claim := laid.claim_addr place room (p := fbn) (Or.inl ⟨rfl,direct⟩) (value.trans absent)
      have extended : Extended k (· = fbn) s (take s) v _ :=
        Extended.claim laid claim room laid.block laid.size (take_next high) rfl (fun _ _ => rfl)
      refine ⟨_,extended.weaken only,Function.update_self _ _ _,?_,?_,rfl⟩
      · rw [claim.ref,Function.update_self]
      · rw [claim.ref,Function.update_self]
        omega
    · rw [if_neg absent] at ok
      cases ok
      have there : v.ref (k,fbn) ≠ 0 := by rw [value]; exact absent
      have range := (laid.range there).2
      rw [value] at range
      obtain ⟨_,rfl⟩ := rsect_small found laid.size (by omega)
      refine ⟨v,(Extended.refl (T := (· = fbn)) laid ?_).weaken only,rfl,value,there,rfl⟩
      rintro q rfl
      exact there
  · rw [if_neg direct] at ok
    obtain ⟨j,rfl⟩ : ∃ j, fbn = 12 + j := ⟨fbn - 12,by change ¬(fbn < 12) at direct; omega⟩
    have entry : 12 + j - ndirect = j := Nat.add_sub_cancel_left 12 j
    generalize step : (if (v.inode k).addr ndirect = 0 then
      (take s,(v.inode k).setAddr ndirect s.freeblock) else (s,v.inode k)) = r at ok
    obtain ⟨s₁,d₁⟩ := r
    dsimp only at ok
    cases read : rsect s₁ (d₁.addr ndirect) with
    | none => simp [read] at ok
    | some indirect =>
      obtain ⟨w,first,inode,address,present,rfl⟩ := indirect_extended laid place step.symm read
      dsimp only at first inode address
      have laid₁ := first.laid
      have high₁ := laid₁.high
      have inside₁ : k < w.sb.slots := (Volume.ref_position present).1
      have value := Volume.ref_entry w inside₁ (j := j) (by omega) present
      have range := laid₁.range present
      simp only [read,entry] at ok
      rw [← address] at ok
      have both (q : Nat) : (q = 140 ∨ q = 12 + j) ↔ (q = 12 + j ∨ q = 140 ∧ 12 ≤ 12 + j) := by omega
      by_cases absent : le32 (w.block (w.ref (k,140))) (4 * j) = 0
      · rw [if_pos absent] at ok
        cases ok
        have empty : w.ref (k,12+j) = 0 := by
          rw [value,absent]
          rfl
        have whole : (wsect (take s₁) (w.ref (k,140))
            (put32 (w.block (w.ref (k,140))) (4 * j) (BitVec.ofNat 32 s₁.freeblock))).size = 1000 := by
          change max s₁.size (position (w.ref (k,140)) + 1) = 1000
          rw [position_of_lt (by omega),laid₁.size]
          omega
        obtain ⟨room,rfl⟩ := rsect_small found whole (by omega)
        have claim := laid₁.claim_entry room (by omega) present empty
        have sectors : (w.setBlock (w.ref (k,140))
            (put32 (w.block (w.ref (k,140))) (4 * j) (BitVec.ofNat 32 s₁.freeblock))).block =
          (wsect (take s₁) (w.ref (k,140))
            (put32 (w.block (w.ref (k,140))) (4 * j) (BitVec.ofNat 32 s₁.freeblock))).sectors := by
          change Function.update w.block _ _ = Function.update s₁.sectors (position _) _
          rw [position_of_lt (by omega),laid₁.block]
        have second := Extended.claim laid₁ claim room sectors whole (take_next high₁) rfl (fun c h => by
          change Function.update s₁.sectors (position _) _ c = _
          rw [position_of_lt (by omega),Function.update_of_ne (by omega)])
        refine ⟨_,(first.trans second).weaken both,inode,?_,?_,rfl⟩
        · rw [claim.ref,Function.update_self]
        · have := laid₁.low
          rw [claim.ref,Function.update_self]
          omega
      · rw [if_neg absent] at ok
        cases ok
        have there : w.ref (k,12+j) ≠ 0 := by
          rw [value]
          exact fun zero => absent (BitVec.eq_of_toNat_eq zero)
        have small := (laid₁.range there).2
        rw [value] at small
        obtain ⟨_,rfl⟩ := rsect_small found laid₁.size (by omega)
        refine ⟨w,(first.trans (Extended.refl (T := (· = 12 + j)) laid₁ ?_)).weaken both,inode,value,there,rfl⟩
        rintro q rfl
        exact there

end block

/-- `n` bytes of `p` were stored from `off` on, the end of file `k`, whose size is
not yet adjusted. -/
structure Appended (k off n : Nat) (p : Buffer) (s s' : Mkfs) (v w : Volume) : Prop where
  laid : Laid s' w
  frame : Volume.Frame (· < s.freeblock) (· < s'.freeblock) k v w
  attrs : ∃ addrs, w.inode k = { v.inode k with addrs := addrs }
  byte : ∀ o, w.byte k o = if off ≤ o ∧ o < off + n then p (o - off) else v.byte k o
  spans : Spans w k (off + n)
  low : ∀ c < 59, s'.sectors c = s.sectors c
  next : s'.freeinode = s.freeinode
  grow : s.freeblock ≤ s'.freeblock

section loop
variable {k off n m x : Nat} {p : Buffer} {s s' s'' : Mkfs} {v w y : Volume} {din din' : Dinode} {buf : Block}

theorem Appended.nil (laid : Laid s v) (spans : Spans v k off) (p : Buffer) : Appended k off 0 p s s v v where
  laid := laid
  frame := Volume.Frame.refl _ _ _
  attrs := ⟨_,rfl⟩
  byte := fun o => (if_neg (by omega)).symm
  spans := spans
  low := fun _ _ => rfl
  next := rfl
  grow := le_refl _

theorem Appended.append (first : Appended k off m p s s' v w)
    (second : Appended k (off + m) n (fun i => p (m + i)) s' s'' w y) : Appended k off (m + n) p s s'' v y where
  laid := second.laid
  frame := first.frame.trans second.frame
  attrs := by
    obtain ⟨a,ha⟩ := first.attrs
    obtain ⟨b,hb⟩ := second.attrs
    exact ⟨b,by rw [hb,ha]⟩
  byte := by
    intro o
    rw [second.byte,first.byte]
    rcases Nat.lt_or_ge o (off + m) with early | late
    · have inside : (off ≤ o ∧ o < off + m) ↔ (off ≤ o ∧ o < off + (m + n)) := by omega
      rw [if_neg (by omega)]
      simp only [inside]
    · have inside : (off + m ≤ o ∧ o < off + m + n) ↔ (off ≤ o ∧ o < off + (m + n)) := by omega
      have index : m + (o - (off + m)) = o - off := by omega
      rw [@if_neg (off ≤ o ∧ o < off + m) _ (by omega)]
      simp only [inside,index]
  spans := Nat.add_assoc off m n ▸ second.spans
  low := fun c h => (second.low c h).trans (first.low c h)
  next := second.next.trans first.next
  grow := first.grow.trans second.grow

theorem Appended.chunk (laid : Laid s v) (place : k < 208) (spans : Spans v k off) (some : 0 < m)
    (fits : off % 512 + m ≤ 512) (index : off / 512 < 140)
    (ok : blockFor s (v.inode k) (off / 512) = Option.some (x,s',din')) (found : rsect s' x = Option.some buf) :
    ∃ w, Appended k off m p s (wsect s' x (blit buf (off % 512) m p)) v w ∧ w.inode k = din' := by
  obtain ⟨w,extended,inode,rfl,there,rfl⟩ := blockFor_spec laid place index ok found
  obtain ⟨laid',frame,attrs,bytes,refs,low,next,grow⟩ := extended
  have range := laid'.range there
  have high := laid'.high
  have place' : position (w.ref (k,off / 512)) = w.ref (k,off / 512) := position_of_lt (by omega)
  generalize store : blit (s'.sectors (w.ref (k,off / 512))) (off % 512) m p = data
  have stored : Laid (wsect s' (w.ref (k,off / 512)) data) _ := laid'.store index there
    (congrArg (fun b => Function.update s'.sectors b data) place')
    (by change max s'.size (position _ + 1) = 1000; rw [place',laid'.size]; omega) rfl
  refine ⟨_,⟨stored,frame.trans (Volume.store_frame laid'.owned index there fun _ _ => Iff.rfl),attrs,fun o => ?_,
    fun q => ?_,fun c h => ?_,next,grow⟩,inode⟩
  · rw [Volume.store_byte laid'.owned index there,← bytes,← store,← laid'.block]
    by_cases inside : off ≤ o ∧ o < off + m
    · have block : o / 512 = off / 512 := by omega
      have offset : o % 512 = off % 512 + (o - off) := by omega
      rw [if_pos ⟨rfl,block⟩,if_pos inside,offset,blit_inside (by omega)]
    · rw [if_neg inside]
      by_cases block : o / 512 = off / 512
      · rw [if_pos ⟨rfl,block⟩,blit_outside (by omega),Volume.byte,Volume.addr,block,if_pos index,if_neg there]
      · rw [if_neg (fun h => block h.2)]
  · rw [Volume.store_ref laid'.owned index,refs,spans,needed_chunk some fits index]
  · change Function.update s'.sectors (position _) _ c = _
    rw [place',Function.update_of_ne (by omega),low c h]

theorem iappendLoop_spec (fuel : Nat) (laid : Laid s v) (place : k < 208) (spans : Spans v k off)
    (inode : v.inode k = din) (small : off ≤ 71680) (enough : n ≤ fuel) {off' : Nat}
    (ok : iappendLoop fuel s din off p n = Option.some (s',din',off')) :
    ∃ w, Appended k off n p s s' v w ∧ w.inode k = din' ∧ off' = off + n ∧ off + n ≤ 71680 := by
  induction fuel generalizing s v din off p n with
  | zero =>
    obtain rfl : n = 0 := by omega
    cases ok
    exact ⟨v,Appended.nil laid spans p,inode,rfl,small⟩
  | succ fuel ih =>
    unfold iappendLoop at ok
    by_cases more : n > 0
    · rw [if_pos more] at ok
      dsimp only at ok
      by_cases index : off / bsize < maxfile
      · rw [if_pos index] at ok
        change off / 512 < 140 at index
        have offset : off - off / bsize * bsize = off % 512 := by
          change off - off / 512 * 512 = off % 512
          omega
        have rest : (off / bsize + 1) * bsize - off = 512 - off % 512 := by
          change (off / 512 + 1) * 512 - off = 512 - off % 512
          omega
        subst inode
        cases block : blockFor s (v.inode k) (off / bsize) with
        | none => simp [block] at ok
        | some r =>
          obtain ⟨x,s₁,d₁⟩ := r
          simp only [block] at ok
          cases found : rsect s₁ x with
          | none => simp [found] at ok
          | some buf =>
            simp only [found,offset,rest] at ok
            generalize amount : min n (512 - off % 512) = m at ok
            obtain ⟨w,first,inode₁⟩ := @Appended.chunk k off m x p s s₁ v d₁ buf laid place spans (by omega) (by omega)
              index block found
            obtain ⟨y,second,inode₂,result,bound⟩ := ih first.laid first.spans inode₁ (by omega) (by omega) ok
            have total : m + (n - m) = n := by omega
            have whole := first.append second
            rw [total] at whole
            exact ⟨y,whole,inode₂,by omega,by omega⟩
      · rw [if_neg index] at ok
        cases ok
    · obtain rfl : n = 0 := by omega
      rw [if_neg more] at ok
      cases ok
      exact ⟨v,Appended.nil laid spans p,inode,rfl,small⟩

end loop

/-- The inodes on the disk, with `v` for inode `k`: what `winode` completes. -/
structure Rewritten (k : Nat) (d : Dinode) (s s' : Mkfs) (v : Volume) : Prop where
  laid : Laid s' s'.volume
  inode : s'.volume.inode k = d
  other : ∀ j, j ≠ k → s'.volume.inode j = s.volume.inode j
  ref : s'.volume.ref = v.ref
  byte : s'.volume.byte = v.byte
  super : s'.sectors 1 = s.sectors 1
  next : s'.freeinode = s.freeinode
  grow : s'.freeblock = s.freeblock

section inode
variable {k : Nat} {s s' : Mkfs} {v : Volume} {d : Dinode}

theorem iblock_eq {j : Nat} (bound : j < 208) : sb.iblock j = j / 8 + 32 := layout.iblock_eq bound

theorem winode_spec (laid : Laid s v) (place : k < 208) (addrs : d.addrs = (v.inode k).addrs)
    (others : ∀ j, j ≠ k → v.inode j = s.volume.inode j) (ok : winode s k d = some s') :
    Rewritten k d s s' v := by
  unfold winode at ok
  have area := iblock_eq place
  have here : position (sb.iblock k) = sb.iblock k := position_of_lt (by omega)
  cases read : rsect s (sb.iblock k) with
  | none => simp [read] at ok
  | some buf =>
    obtain ⟨_,rfl⟩ := rsect_small read laid.size (by omega)
    simp only [read,Option.some.injEq] at ok
    generalize store : d.encode (s.sectors (sb.iblock k)) (inodeOffset k) = data at ok
    have sectors : s'.sectors = Function.update s.sectors (sb.iblock k) data := by
      rw [← ok]
      change Function.update s.sectors (position _) data = _
      rw [here]
    have size : s'.size = 1000 := by
      rw [← ok]
      change max s.size (position _ + 1) = 1000
      rw [here,laid.size]
      omega
    have counters : s'.freeinode = s.freeinode ∧ s'.freeblock = s.freeblock := by rw [← ok]; exact ⟨rfl,rfl⟩
    have inode (j : Nat) (bound : j < 208) : s'.inode j = if j = k then d else s.inode j := by
      unfold Mkfs.inode
      rw [sectors]
      by_cases same : j = k
      · subst j
        rw [if_pos rfl,Function.update_self,← store,Dinode.decode_encode]
      · rw [if_neg same]
        by_cases block : sb.iblock j = sb.iblock k
        · rw [block,Function.update_self,← store]
          exact Dinode.decode_encode_other d _ _ _ (layout.inode_disjoint place bound (Ne.symm same) block.symm)
        · rw [Function.update_of_ne block]
    have written : s'.volume.inode = Function.update s.volume.inode k d := by
      funext j
      by_cases same : j = k
      · subst j
        rw [Mkfs.volume_inode place,inode k place,if_pos rfl,Function.update_self]
      · rw [Function.update_of_ne same]
        by_cases bound : j < 208
        · rw [Mkfs.volume_inode bound,Mkfs.volume_inode bound,inode j bound,if_neg same]
        · exact (if_neg bound).trans (if_neg bound).symm
    have table : sb.iblock k < v.sb.bmapstart := by
      rw [laid.sb]
      change sb.iblock k < 58
      omega
    have whole : s'.volume = (v.setBlock (sb.iblock k) data).setInode k d := by
      obtain ⟨vsb,vinode,vblock⟩ := v
      have first := laid.sb
      have second := laid.block
      simp only at first second others
      subst first second
      simp only [Volume.setBlock,Volume.setInode,Mkfs.volume,Volume.mk.injEq,true_and]
      refine ⟨written.trans (funext fun j => ?_),sectors⟩
      by_cases same : j = k
      · rw [same,Function.update_self,Function.update_self]
      · rw [Function.update_of_ne same,Function.update_of_ne same,others j same]
    have ref : s'.volume.ref = v.ref := by
      rw [whole,Volume.setInode_ref (by exact addrs),Volume.table_ref laid.owned table]
    refine ⟨⟨rfl,rfl,size,counters.2 ▸ laid.high,?_,fun b high => ?_,fun b low high => ?_⟩,?_,fun j away => ?_,ref,?_,?_,
      counters.1,counters.2⟩
    · rw [counters.2,whole]
      exact Volume.setInode_owned (Volume.table_owned laid.owned table) (by exact addrs)
    · have low := laid.low
      rw [sectors,Function.update_of_ne (by omega)]
      exact laid.blank b (by omega)
    · rw [ref]
      exact laid.exact b low (by omega)
    · rw [written,Function.update_self]
    · rw [written,Function.update_of_ne away]
    · rw [whole,Volume.setInode_byte (by exact addrs),Volume.table_byte laid.owned table]
    · rw [sectors,Function.update_of_ne (by omega)]

end inode

/-- A state between two rounds of the program: no file has a hole, nor a block
after its end. -/
structure Fit (s : Mkfs) : Prop where
  laid : Laid s s.volume
  spans : ∀ k < 208, Spans s.volume k (s.volume.inode k).size.toNat
  small : ∀ k, (s.volume.inode k).size.toNat ≤ 71680
  super : s.sectors 1 = superBlock
  unused : ∀ k, s.freeinode ≤ k → s.volume.inode k = Dinode.zero

/-- `n` bytes of `p` were appended to file `k`, and nothing else happened. -/
structure Append (k n : Nat) (p : Buffer) (s s' : Mkfs) : Prop where
  fit : Fit s'
  room : (s.volume.inode k).size.toNat + n ≤ 71680
  inode : ∃ addrs, s'.volume.inode k = { s.volume.inode k with
    addrs := addrs,size := BitVec.ofNat 32 ((s.volume.inode k).size.toNat + n) }
  other : ∀ j, j ≠ k → s'.volume.inode j = s.volume.inode j
  byte : ∀ o, s'.volume.byte k o = if (s.volume.inode k).size.toNat ≤ o ∧ o < (s.volume.inode k).size.toNat + n then
    p (o - (s.volume.inode k).size.toNat) else s.volume.byte k o
  foreign : ∀ j, j ≠ k → s'.volume.byte j = s.volume.byte j
  next : s'.freeinode = s.freeinode
  grow : s.freeblock ≤ s'.freeblock

theorem iappend_spec {s s' : Mkfs} {k n : Nat} {p : Buffer} (fit : Fit s) (place : k < 208) (taken : k < s.freeinode)
    (ok : iappend s k p n = some s') : Append k n p s s' := by
  have laid := fit.laid
  have area := iblock_eq place
  unfold iappend rinode at ok
  cases read : rsect s (sb.iblock k) with
  | none => simp [read] at ok
  | some buf =>
    obtain ⟨_,rfl⟩ := rsect_small read laid.size (by omega)
    simp only [read] at ok
    generalize start : Dinode.decode (s.sectors (sb.iblock k)) (inodeOffset k) = din at ok
    have inode : s.volume.inode k = din := (Mkfs.volume_inode place).trans start
    cases run : iappendLoop n s din din.size.toNat p n with
    | none => simp [run] at ok
    | some r =>
      obtain ⟨s₁,d₁,off⟩ := r
      simp only [run] at ok
      have before := fit.spans k place
      have small := fit.small k
      rw [inode] at before small
      obtain ⟨w,appended,inode₁,rfl,room⟩ := iappendLoop_spec n laid place before inode small (le_refl n) run
      obtain ⟨laid₁,frame,⟨addrs,attrs⟩,bytes,spans,low,next,grow⟩ := appended
      have same (j : Nat) (bound : j < 208) : s₁.volume.inode j = s.volume.inode j := by
        have block := iblock_eq bound
        rw [Mkfs.volume_inode bound,Mkfs.volume_inode bound,Mkfs.inode,Mkfs.inode,low _ (by omega)]
      have rest (j : Nat) : s₁.volume.inode j = s.volume.inode j := by
        by_cases bound : j < 208
        · exact same j bound
        · exact (if_neg bound).trans (if_neg bound).symm
      have written := winode_spec laid₁ place (by rw [inode₁])
        (fun j away => (frame.other j away).trans (rest j).symm) ok
      have length : (BitVec.ofNat 32 (din.size.toNat + n)).toNat = din.size.toNat + n := by
        rw [BitVec.toNat_ofNat]
        omega
      have other (j : Nat) (away : j ≠ k) : s'.volume.inode j = s.volume.inode j :=
        (written.other j away).trans (rest j)
      have result : s'.volume.inode k =
          { din with addrs := addrs,size := BitVec.ofNat 32 (din.size.toNat + n) } := by
        rw [written.inode,← inode₁,attrs,inode]
      refine ⟨⟨written.laid,fun j bound => ?_,fun j => ?_,?_,fun j free => ?_⟩,by rw [inode]; exact room,
        ⟨addrs,by rw [inode]; exact result⟩,other,fun o => ?_,fun j away => ?_,written.next.trans next,?_⟩
      · by_cases here : j = k
        · subst j
          rw [result,length]
          intro q
          rw [written.ref]
          exact spans q
        · intro q
          rw [written.ref,frame.foreign (j,q) here,other j here]
          exact fit.spans j bound q
      · by_cases here : j = k
        · subst j
          rw [result,length]
          exact room
        · rw [other j here]
          exact fit.small j
      · rw [written.super,low 1 (by omega)]
        exact fit.super
      · have away : j ≠ k := by
          have := written.next.trans next
          omega
        rw [other j away]
        exact fit.unused j (by have := written.next.trans next; omega)
      · rw [written.byte,bytes,inode]
      · rw [written.byte,frame.byte j away]
      · rw [written.grow]
        exact grow

theorem inoalloc_spec {s s' : Mkfs} {type : BitVec 16} {inum : Nat} (fit : Fit s) (room : s.freeinode < 208)
    (ok : inoalloc s type = some (inum,s')) :
    Fit s' ∧ inum = s.freeinode ∧ s'.freeinode = s.freeinode + 1 ∧ s'.freeblock = s.freeblock ∧
      s'.volume.inode inum = { Dinode.zero with type := type,nlink := 1 } ∧
      (∀ j, j ≠ inum → s'.volume.inode j = s.volume.inode j) ∧ s'.volume.byte = s.volume.byte := by
  have laid := fit.laid
  have next : u32 (s.freeinode + 1) = s.freeinode + 1 := u32_of_lt (by omega)
  unfold inoalloc at ok
  simp only [next] at ok
  generalize fresh : { Dinode.zero with type := type,nlink := 1 } = d at ok ⊢
  have blank : d.addrs = Dinode.zero.addrs ∧ d.size = 0 := by subst fresh; exact ⟨rfl,rfl⟩
  generalize count : { s with freeinode := s.freeinode + 1 } = s₁ at ok
  have laid₁ : Laid s₁ s.volume := by
    subst count
    exact ⟨rfl,rfl,laid.size,laid.high,laid.owned,laid.blank,laid.exact⟩
  have same : s₁.volume = s.volume := by subst count; rfl
  cases write : winode s₁ s.freeinode d with
  | none => simp [write] at ok
  | some s₂ =>
    simp only [write,Option.some.injEq,Prod.mk.injEq] at ok
    obtain ⟨rfl,rfl⟩ := ok
    have empty := fit.unused s.freeinode (le_refl _)
    have written := winode_spec laid₁ room (by rw [empty]; exact blank.1) (fun j _ => by rw [same]) write
    have other (j : Nat) (away : j ≠ s.freeinode) : s₂.volume.inode j = s.volume.inode j := by
      rw [written.other j away,same]
    have number : s₂.freeinode = s.freeinode + 1 := by rw [written.next,← count]
    have size (j : Nat) : (s₂.volume.inode j).size = (s.volume.inode j).size := by
      by_cases here : j = s.freeinode
      · rw [here,written.inode,empty]
        exact blank.2
      · rw [other j here]
    refine ⟨⟨written.laid,fun j bound q => ?_,fun j => ?_,?_,fun j free => ?_⟩,rfl,number,by rw [written.grow,← count],
      written.inode,other,written.byte⟩
    · rw [written.ref,size]
      exact fit.spans j bound q
    · rw [size]
      exact fit.small j
    · rw [written.super,← count]
      exact fit.super
    · rw [other j (by omega)]
      exact fit.unused j (by omega)

end Lxos.Utils
