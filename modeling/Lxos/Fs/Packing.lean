import Lxos.Fs.Made
import Lxos.Fs.FileLaw

/-! How dinodes share the blocks of the inode table. Two numbers never have a byte in
common, so that `iupdate` and `ialloc` write their own dinode and no other. -/
namespace Lxos.Fs
open Lxos.Bytes

section places
variable {sb : Superblock} {j k : Nat}

/-- Even where the table runs past the last block number, two inodes of a block lie apart. -/
theorem iblock_apart (hj : j < 4294967296) (hk : k < 4294967296) (distinct : j ≠ k) (block : sb.iblock j = sb.iblock k) :
    inodeOffset j + 64 ≤ inodeOffset k ∨ inodeOffset k + 64 ≤ inodeOffset j := by
  have same : j / 8 = k / 8 := by
    unfold Superblock.iblock u32 at block
    change (j / 8 + sb.inodestart) % 4294967296 = (k / 8 + sb.inodestart) % 4294967296 at block
    omega
  change j % 8 * 64 + 64 ≤ k % 8 * 64 ∨ k % 8 * 64 + 64 ≤ j % 8 * 64
  omega

end places

section frame
variable {dev k : Nat} {ip : Slot} {st st' st'' : FsState}

/-- Every dinode other than `k` of device `dev` keeps its 64 bytes. -/
def OthersKept (dev k : Nat) (st st' : FsState) : Prop :=
  ∀ dev' j, j < 4294967296 → dev' ≠ dev ∨ j ≠ k → ∀ o < 64,
    st'.disk dev' (st.sb.iblock j) (inodeOffset j + o) = st.disk dev' (st.sb.iblock j) (inodeOffset j + o)

theorem OthersKept.of_recorded (recorded : Recorded dev k st st') (elsewhere : ∀ dev', dev' ≠ dev → st'.disk dev' = st.disk dev')
    (width : k < 4294967296) : OthersKept dev k st st' := by
  intro dev' j low other o inside
  rcases eq_or_ne dev' dev with rfl | away
  · have distinct : j ≠ k := other.resolve_left fun h => h rfl
    by_cases block : st.sb.iblock j = st.sb.iblock k
    · have apart := iblock_apart low width distinct block
      rw [block,recorded.byte _ (by omega)]
    · rw [recorded.block _ block]
  · rw [elsewhere dev' away]

theorem iupdate_others (width : (st.icache ip).inum < 4294967296) :
    OthersKept (st.icache ip).dev (st.icache ip).inum st (iupdate st ip) := by
  refine OthersKept.of_recorded (iupdate_recorded rfl rfl) (fun dev' away => ?_) width
  funext c
  exact bwrite_other _ _ _ _ (Or.inl away)

theorem claimDinode_others (type : BitVec 16) (width : k < 4294967296) : OthersKept dev k st (claimDinode st dev k type) := by
  refine OthersKept.of_recorded (claimDinode_recorded st dev k type) (fun dev' away => ?_) width
  funext c
  exact bwrite_other _ _ _ _ (Or.inl away)

/-- A slot without a copy gets the dinode that is on the disk. -/
theorem ilock_loads (stale : (st.icache ip).valid = false) :
    ((ilock st ip).icache ip).toDinode = st.table (st.icache ip).dev (st.icache ip).inum := by
  unfold ilock
  dsimp only
  have prints : (if (st.icache ip).ref < 1 then kprint st .ilock else st).icache = st.icache ∧
      (if (st.icache ip).ref < 1 then kprint st .ilock else st).table = st.table := by
    split
    · exact ⟨rfl,rfl⟩
    · exact ⟨rfl,rfl⟩
  generalize (if (st.icache ip).ref < 1 then kprint st .ilock else st) = s at prints
  rw [← prints.1] at stale ⊢
  rw [← prints.2]
  simp only [stale,Bool.false_eq_true,if_false]
  split
  · simp [FsState.table]
  · simp [FsState.table]

/-- Whatever the cache does in between, a new copy of an inode is what `iupdate` stored. -/
theorem iupdate_ilock {ip' : Slot} (sb : st'.sb = st.sb) (disk : st'.disk = (iupdate st ip).disk)
    (device : (st'.icache ip').dev = (st.icache ip).dev) (inum : (st'.icache ip').inum = (st.icache ip).inum)
    (stale : (st'.icache ip').valid = false) : ((ilock st' ip').icache ip').toDinode = (st.icache ip).toDinode := by
  have stored := @iupdate_stored (st.icache ip).dev ip st rfl
  have table : st'.table (st.icache ip).dev (st.icache ip).inum = (iupdate st ip).table (st.icache ip).dev (st.icache ip).inum := by
    unfold FsState.table
    rw [disk,sb]
    rfl
  rw [ilock_loads stale,device,inum,table,stored]

end frame

/-- Inode `k` is the first one, from 1 on, whose dinode has no type. -/
structure FirstFree (st : FsState) (dev k : Nat) : Prop where
  positive : 1 ≤ k
  bound : k < st.sb.ninodes
  free : (st.table dev k).type = 0
  first : ∀ j, 1 ≤ j → j < k → (st.table dev j).type ≠ 0

/-- What `ialloc` does when inode `k` is free: it is claimed and referenced, or all slots are taken. -/
inductive Granted (dev : Nat) (type : BitVec 16) (k : Nat) (st : FsState) : Except Fault (Option Slot × FsState) → Prop
  | slot (ip : Slot) (st' : FsState) (device : (st'.icache ip).dev = dev) (inum : (st'.icache ip).inum = k)
      (table : st'.table dev k = { Dinode.zero with type := type }) (others : OthersKept dev k st st') :
      Granted dev type k st (.ok (some ip,st'))
  | full (taken : ∀ s, (st.icache s).ref ≠ 0) : Granted dev type k st (.error .noSlot)

section search
variable {dev k inum : Nat} {type : BitVec 16} {st s : FsState} {r : Except Fault (Option Slot × FsState)}

theorem iget_full {e : Fault} (failed : iget st dev k = .error e) : e = .noSlot ∧ ∀ s, (st.icache s).ref ≠ 0 := by
  constructor
  · unfold iget at failed
    split at failed
    · cases failed
    · split at failed
      · cases failed
      · exact (Except.error.inj failed).symm
  · intro s free
    obtain ⟨_,_,ok⟩ := @iget_ok dev k st ⟨s,free⟩
    rw [ok] at failed
    cases failed

theorem Granted.congr (disk : s.disk = st.disk) (sb : s.sb = st.sb) (icache : s.icache = st.icache)
    (granted : Granted dev type k s r) : Granted dev type k st r := by
  cases granted with
  | slot ip st' device inum table others =>
    refine .slot ip st' device inum table ?_
    intro dev' j low other o inside
    rw [← sb,← disk]
    exact others dev' j low other o inside
  | full taken => exact .full (icache ▸ taken)

/-- The search goes on as long as the dinodes are in use, and changes nothing. -/
theorem iallocLoop_search (fuel : Nat) (width : st.sb.ninodes ≤ 4294967296) (positive : 1 ≤ inum)
    (enough : st.sb.ninodes ≤ inum + fuel) (used : ∀ j, 1 ≤ j → j < inum → (st.table dev j).type ≠ 0) :
    (∃ k, FirstFree st dev k ∧ Granted dev type k st (iallocLoop dev type fuel st inum)) ∨
      (∀ j, 1 ≤ j → j < st.sb.ninodes → (st.table dev j).type ≠ 0) ∧
        ∃ st', iallocLoop dev type fuel st inum = .ok (none,st') ∧ st'.disk = st.disk := by
  induction fuel generalizing st inum with
  | zero => exact Or.inr ⟨fun j low high => used j low (by omega),_,rfl,rfl⟩
  | succ fuel ih =>
    unfold iallocLoop
    by_cases bound : inum < st.sb.ninodes
    · rw [if_pos bound]
      dsimp only
      by_cases free : le16 ((bread st dev (st.sb.iblock inum)).disk dev (st.sb.iblock inum)) (inodeOffset inum) = 0
      · rw [if_pos free]
        refine Or.inl ⟨inum,⟨positive,bound,free,used⟩,?_⟩
        generalize read : bread st dev (st.sb.iblock inum) = s
        refine Granted.congr (s := s) (read ▸ rfl) (read ▸ rfl) (read ▸ rfl) ?_
        cases result : iget (claimDinode s dev inum type) dev inum with
        | error e =>
          obtain ⟨rfl,taken⟩ := iget_full result
          exact .full taken
        | ok pair =>
          obtain ⟨ip,st'⟩ := pair
          have got := iget_got result
          have table : st'.table dev inum = { Dinode.zero with type := type } := by
            have claimed := claimDinode_table s dev inum type
            unfold FsState.table at claimed ⊢
            rw [got.disk,got.sb]
            exact claimed
          refine .slot ip st' got.device got.inum table fun dev' j low other o inside => ?_
          rw [got.disk]
          exact claimDinode_others type (by omega) dev' j low other o inside
      · rw [if_neg free]
        have used' (j : Nat) (low : 1 ≤ j) (high : j < inum + 1) : (st.table dev j).type ≠ 0 := by
          rcases Nat.lt_succ_iff_lt_or_eq.mp high with before | rfl
          · exact used j low before
          · exact free
        generalize passed : brelse (bread st dev (st.sb.iblock inum)) dev (st.sb.iblock inum) = s
        have disk : s.disk = st.disk := passed ▸ rfl
        have sb : s.sb = st.sb := passed ▸ rfl
        have icache : s.icache = st.icache := passed ▸ rfl
        have table (j : Nat) : s.table dev j = st.table dev j := by
          unfold FsState.table
          rw [disk,sb]
        rcases @ih (inum+1) s (by rw [sb]; exact width) (by omega) (by rw [sb]; omega) (fun j low high => by
          rw [table]; exact used' j low high) with ⟨k,first,granted⟩ | ⟨none_free,st',ok,same⟩
        · refine Or.inl ⟨k,⟨first.positive,sb ▸ first.bound,?_,fun j low high => ?_⟩,granted.congr disk sb icache⟩
          · rw [← table]
            exact first.free
          · rw [← table]
            exact first.first j low high
        · refine Or.inr ⟨fun j low high => ?_,st',ok,same.trans disk⟩
          rw [← table]
          exact none_free j low (by rw [sb]; exact high)
    · rw [if_neg bound]
      exact Or.inr ⟨fun j low high => used j low (by omega),_,rfl,rfl⟩

end search

/-- An inode of the table, from `iupdate` to the next `ilock` of it, and what `ialloc` takes. The
number of inodes is a `uint`; nothing else is asked of the superblock. -/
theorem inodes_packed (st : FsState) (width : st.sb.ninodes < 4294967296) :
    (∀ ip, (st.icache ip).inum < st.sb.ninodes →
      OthersKept (st.icache ip).dev (st.icache ip).inum st (iupdate st ip) ∧
      ∀ st' ip', st'.sb = st.sb → st'.disk = (iupdate st ip).disk → (st'.icache ip').dev = (st.icache ip).dev →
        (st'.icache ip').inum = (st.icache ip).inum → (st'.icache ip').valid = false →
          ((ilock st' ip').icache ip').toDinode = (st.icache ip).toDinode) ∧
    ∀ dev type, (∃ k, FirstFree st dev k ∧ Granted dev type k st (ialloc st dev type)) ∨
      (∀ j, 1 ≤ j → j < st.sb.ninodes → (st.table dev j).type ≠ 0) ∧
        ∃ st', ialloc st dev type = .ok (none,st') ∧ st'.disk = st.disk := by
  refine ⟨fun ip bound => ⟨iupdate_others (by omega),fun st' ip' sb disk device inum stale => ?_⟩,fun dev type => ?_⟩
  · exact iupdate_ilock sb disk device inum stale
  · exact iallocLoop_search st.sb.ninodes (by omega) (le_refl 1) (by omega) fun j low high => by omega

theorem inodes_packed_blank : OthersKept 1 1 blank (iupdate blank 0) ∧
    ((∃ k, FirstFree blank 1 k ∧ Granted 1 tFile k blank (ialloc blank 1 tFile)) ∨
      (∀ j, 1 ≤ j → j < 8 → (blank.table 1 j).type ≠ 0) ∧
        ∃ st', ialloc blank 1 tFile = .ok (none,st') ∧ st'.disk = blank.disk) :=
  ⟨((inodes_packed blank (by decide)).1 0 (by decide)).1,(inodes_packed blank (by decide)).2 1 tFile⟩

end Lxos.Fs
