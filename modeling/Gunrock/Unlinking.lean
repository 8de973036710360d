import Gunrock.Reading
import Mathlib.Data.List.GetD

/-!
# Removing an entry

`unlink` on a sound volume.  The entries behind the removed one move up by a slot, over the
boundaries of blocks, and the parent loses its last block when that becomes empty; then the
child's blocks and its inode are freed.  `Volume.removed` is the volume that results.
-/

namespace Gunrock

open Disk LocalFileSystem Wp

variable {g : Geometry} {im : Nat → Block} {d : Disk} {v w : Volume} {i j k : Nat} {name : Bytes}

/-! ## The scans -/

/-- Reading all blocks of a directory. -/
theorem wp_readBlocks (h : Holds g d v) (hg : GoodInode g v i) {n x : Nat}
    (hn : x + n = v.blocks i) {Q : List Block → Disk → Prop}
    (hQ : Q ((List.range' x n).map fun y => v.data (v.ptr g i y)) d) :
    wp (readBlocks (v.inode i) n x) Q d := by
  have hle := hg.blocks_le
  induction n generalizing x Q with
  | zero =>
      rw [readBlocks, wp_pure]
      exact hQ
  | succ n ih =>
      simp only [readBlocks, wp_bind]
      rw [wp_directAt (by omega), wp_readPtr h hg (by omega)]
      refine ih (by omega) ?_
      rw [wp_pure]
      exact hQ

/-- The entries read are the directory's slots. -/
theorem pEntry_eq {k : Nat} (hk : k < 128 * v.blocks i) :
    pEntry ((List.range' 0 (v.blocks i)).map fun y => v.data (v.ptr g i y)) k = v.entry g i k := by
  rw [pEntry, List.getD_eq_getElem _ _ (by simp; omega), Volume.entry]
  simp

/-- What `removeEntry` makes of the first `n` entries depends on these alone. -/
theorem removeEntry_congr {e e' : Nat → DirEnt} {n c m : Nat} (hc : c < n) (hm : m < n)
    (h : ∀ k' < n, e k' = e' k') : removeEntry e k c m = removeEntry e' k c m := by
  unfold removeEntry
  split
  · rw [h m hm]
  · split
    · exact h _ (by omega)
    · exact h m hm

/-- A block of a directory has an entry other than `.` and `..`. -/
theorem hasEntry_iff (hs : GoodSlots g v i) (x : Nat) :
    hasEntry (v.data (v.ptr g i x)) (v.inode i).size x = true ↔
      ∃ k, 128 * x ≤ k ∧ k < 128 * (x + 1) ∧ 2 ≤ k ∧ k < v.count i := by
  have hsize := hs.size_eq
  rw [hasEntry, List.any_eq_true]
  constructor
  · rintro ⟨m, hm, he⟩
    have hm := List.mem_range.mp hm
    rw [entry_block v i x hm] at he
    simp only [Bool.and_eq_true, decide_eq_true_eq, bne_iff_ne] at he
    obtain ⟨⟨⟨hlt, -⟩, hdot⟩, hdotdot⟩ := he
    refine ⟨128 * x + m, by omega, by omega, ?_, by omega⟩
    by_contra h2
    rcases (show 128 * x + m = 0 ∨ 128 * x + m = 1 by omega) with h0 | h1
    · rw [h0] at hdot
      exact hdot hs.self.1
    · rw [h1] at hdotdot
      exact hdotdot hs.parent.1
  · rintro ⟨k, h1, h2, h3, h4⟩
    have hlive := hs.live k h3 h4
    refine ⟨k - 128 * x, List.mem_range.mpr (by omega), ?_⟩
    rw [entry_block v i x (by omega), show 128 * x + (k - 128 * x) = k by omega]
    have hnonneg := hlive.inum_nonneg
    simp only [Bool.and_eq_true, decide_eq_true_eq, bne_iff_ne]
    exact ⟨⟨⟨by omega, by omega⟩, hlive.ne_dot⟩, hlive.ne_dotdot⟩

/-- The emptiness scan, from block `x` on, when what it has come past has no entry. -/
theorem wp_notEmptyFrom (h : Holds g d v) (hg : GoodInode g v i) (hs : GoodSlots g v i)
    {n x : Nat} (hn : x + n = v.blocks i) (hx : v.count i ≤ 2 ∨ 128 * x ≤ 2)
    {Q : Bool → Disk → Prop} (hQ : Q (decide (2 < v.count i)) d) :
    wp (notEmptyFrom (v.inode i) n x) Q d := by
  have hle := hg.blocks_le
  have hcount := v.count_le_blocks i
  induction n generalizing x with
  | zero =>
      rw [notEmptyFrom, wp_pure]
      rwa [decide_eq_false (by omega)] at hQ
  | succ n ih =>
      simp only [notEmptyFrom, wp_bind]
      rw [wp_directAt (by omega), wp_readPtr h hg (by omega)]
      by_cases hhas : hasEntry (v.data (v.ptr g i x)) (v.inode i).size x = true
      · rw [if_pos hhas, wp_pure]
        obtain ⟨k, h1, h2, h3, h4⟩ := (hasEntry_iff hs x).mp hhas
        rwa [decide_eq_true (by omega)] at hQ
      · rw [if_neg hhas]
        refine ih (by omega) (.inl ?_)
        -- slot 2 would be in the block just read
        by_contra hlt
        exact hhas ((hasEntry_iff hs x).mpr ⟨2, by omega, by omega, le_rfl, by omega⟩)

/-- Whether the child may not be removed. -/
theorem wp_isFullDirectory (h : Holds g d v) (hg : GoodInode g v j) {Q : Bool → Disk → Prop}
    (hQ : Q (decide ((v.inode j).type = ufsDirectory ∧ 2 < v.count j)) d) :
    wp (isFullDirectory (v.inode j)) Q d := by
  rw [isFullDirectory]
  by_cases ht : (v.inode j).type = ufsDirectory
  · rw [if_pos ht, hg.blockCount, Int.toNat_natCast]
    refine wp_notEmptyFrom h hg (hg.slots ht) (Nat.zero_add _) (.inr (by omega)) ?_
    simpa [ht] using hQ
  · rw [if_neg ht, wp_pure]
    rwa [decide_eq_false fun hc => ht hc.1] at hQ

/-! ## The volume without the entry -/

namespace Volume

variable (g : Geometry) (v : Volume) (i k j : Nat)

/-- The blocks directory `i` needs for one entry less. -/
def blocksLeft : Nat := (v.count i - 1 + 127) / 128

/-- Block `x` of the directory once slot `k` is gone. -/
def shiftedBlock (x : Nat) : Block :=
  Block.ofEntries fun m => removeEntry (v.entry g i) k (v.count i - 1) (128 * x + m)

/-- The parent's inode. -/
def parentInode : Inode :=
  { v.inode i with size := (32 * (v.count i - 1) : Nat) }.setPtrs (v.blocksLeft i)
    (v.blocks i - v.blocksLeft i) fun _ => 2 ^ 32 - 1

/-- The volume with slot `k` of directory `i` removed. -/
def closed : Volume :=
  ((v.setDatas (v.ptr g i) (v.shiftedBlock g i k) 0 (v.blocksLeft i)).setDataBits
    ((List.range' (v.blocksLeft i) (v.blocks i - v.blocksLeft i)).map (v.ptr g i)) false).setInode i
    (v.parentInode i)

/-- The volume after slot `k` of directory `i` and the inode `j` were removed. -/
def removed : Volume :=
  ((v.closed g i k).setDataBits ((List.range (v.blocks j)).map (v.ptr g j)) false).setInodeBit j
    false

end Volume

/-- Slot `k` of directory `i` is for `j`, under `name`, and `j` may be removed. -/
structure CanRemove (g : Geometry) (v : Volume) (i : Nat) (name : Bytes) (k j : Nat) : Prop where
  bit : v.inodeBit i = true
  dir : (v.inode i).type = ufsDirectory
  name_ne : name ≠ []
  two_le : 2 ≤ k
  lt_count : k < v.count i
  cname : (v.entry g i k).cname = name
  inum : (v.entry g i k).inum = j
  empty : (v.inode j).type = ufsDirectory → v.count j ≤ 2

/-! ## The loops -/

theorem blocksFor_count (n : Nat) : blocksFor ((32 * n : Nat) : Int) = (n + 127) / 128 := by
  unfold blocksFor
  omega

theorem Active.wp_writeEntries (h : Active g im d w) {inode : Inode} {q : Nat → Nat}
    {entries : Nat → DirEnt} {n x : Nat} (hx : x + n ≤ 30)
    (hq : ∀ y, x ≤ y → y < x + n → q y < g.numData ∧ inode.ptr y = g.dataBlock (q y))
    (hinj : ∀ y z, x ≤ y → y < z → z < x + n → q z ≠ q y) {Q : PUnit → Disk → Prop}
    (hQ : ∀ d', Active g im d'
      (w.setDatas q (fun y => Block.ofEntries fun m => entries (128 * y + m)) x n) → Q ⟨⟩ d') :
    wp (writeEntries inode entries n x) Q d := by
  induction n generalizing d w x with
  | zero =>
      rw [writeEntries, wp_pure]
      exact hQ d (by simpa using h)
  | succ n ih =>
      obtain ⟨hlt, hptr⟩ := hq x le_rfl (by omega)
      simp only [writeEntries, wp_bind]
      rw [wp_directAt (by omega), hptr]
      refine h.wp_writeDataBlock hlt fun d₁ h₁ => ?_
      refine ih h₁ (by omega) (fun y h1 h2 => hq y (by omega) (by omega))
        (fun y z h1 h2 h3 => hinj y z (by omega) h2 (by omega)) fun d₂ h₂ => hQ d₂ ?_
      rw [← Volume.setDatas_succ _ _ _ fun y h1 h2 => hinj x y le_rfl h1 h2]
      exact h₂

theorem Active.wp_freeBlocks (h : Active g im d w) {inode : Inode} {q : Nat → Nat} {n x : Nat}
    (hx : x + n ≤ 30)
    (hq : ∀ y, x ≤ y → y < x + n → q y < g.numData ∧ inode.ptr y = g.dataBlock (q y))
    {Q : PUnit → Disk → Prop}
    (hQ : ∀ d', Active g im d' (w.setDataBits ((List.range' x n).map q) false) → Q ⟨⟩ d') :
    wp (freeBlocks g.super inode n x) Q d := by
  induction n generalizing d w x with
  | zero =>
      rw [freeBlocks, wp_pure]
      exact hQ d (by simpa using h)
  | succ n ih =>
      obtain ⟨hlt, hptr⟩ := hq x le_rfl (by omega)
      simp only [freeBlocks, wp_bind]
      rw [wp_directAt (by omega), hptr]
      refine h.wp_freeBlock hlt fun d₁ h₁ => ?_
      refine ih h₁ (by omega) (fun y h1 h2 => hq y (by omega) (by omega)) fun d₂ h₂ => hQ d₂ ?_
      rw [List.range'_succ, List.map_cons, ← Volume.setDataBits_cons]
      exact h₂

theorem blocksLeft_le (hs : GoodSlots g v i) :
    v.blocksLeft i ≤ v.blocks i ∧ v.blocks i ≤ v.blocksLeft i + 1 := by
  have hblocks := hs.blocks_eq
  unfold Volume.blocksLeft
  omega

/-- The parent's last block, if it is not needed any more, is given back. -/
theorem Active.wp_dropBlock (h : Active g im d w) (hg : GoodInode g v i) (hs : GoodSlots g v i)
    {Q : Inode → Disk → Prop}
    (hQ : ∀ d', Active g im d' (w.setDataBits
      ((List.range' (v.blocksLeft i) (v.blocks i - v.blocksLeft i)).map (v.ptr g i)) false) →
      Q (v.parentInode i) d') :
    wp (dropBlock g.super { v.inode i with size := (32 * (v.count i - 1) : Nat) } (v.blocks i)
      (v.blocksLeft i)) Q d := by
  have hle := hg.blocks_le
  obtain ⟨hleft, hone⟩ := blocksLeft_le hs
  rw [dropBlock]
  rcases Nat.lt_or_eq_of_le hleft with hlt | hsame
  · have hdiff : v.blocks i - v.blocksLeft i = 1 := by omega
    rw [Volume.parentInode, hdiff, List.range'_one, List.map_singleton] at hQ
    have hptr : ({ v.inode i with size := (32 * (v.count i - 1) : Nat) } : Inode).ptr
        (v.blocksLeft i) = g.dataBlock (v.ptr g i (v.blocksLeft i)) :=
      (hg.dataBlock_ptr hlt).symm
    rw [if_pos (by omega), wp_bind, wp_directAt (by omega), wp_bind, hptr]
    refine h.wp_freeBlock (hg.ptr_lt hlt) fun d' hd' => ?_
    rw [show Buffer.unsigned (-1) = 2 ^ 32 - 1 from rfl, wp_setDirect (by omega)]
    rw [← Inode.setPtrs_succ, Inode.setPtrs_zero, ← Volume.setDataBits_cons,
      Volume.setDataBits_nil] at hQ
    exact hQ d' hd'
  · have hdiff : v.blocks i - v.blocksLeft i = 0 := by omega
    rw [Volume.parentInode, hdiff, Inode.setPtrs_zero, List.range'_zero, List.map_nil,
      Volume.setDataBits_nil] at hQ
    rw [if_neg (by omega), wp_pure]
    exact hQ d h

/-- `removeAt` goes through. -/
theorem Active.wp_removeAt (h : Active g im d v) (hs : Sound g v)
    (hr : CanRemove g v i name k j) (hj : v.inodeBit j = true) {Q : Int → Disk → Prop}
    (hQ : ∀ d', Idle g d' (v.removed g i k j) → Q 0 d') :
    wp (removeAt g.super i (v.inode i)
      ((List.range' 0 (v.blocks i)).map fun y => v.data (v.ptr g i y)) k j (v.inode j)) Q d := by
  have hg := hs.good hr.bit
  have hslots := hg.slots hr.dir
  have hgj := hs.good hj
  have hle := hg.blocks_le
  have hge := hslots.count_ge
  have hblocks := hslots.blocks_eq
  have hlive := hr.lt_count
  have hcnt_le := v.count_le_blocks i
  obtain ⟨hleft, -⟩ := blocksLeft_le hslots
  have hcount : ((v.inode i).size / 32).toNat - 1 = v.count i - 1 := rfl
  have hcnt : blockCount ((32 * (v.count i - 1) : Nat) : Int) = v.blocksLeft i := by
    rw [blockCount_eq (by omega) (by omega), blocksFor_count]
    rfl
  simp only [removeAt, hcount, hcnt, hg.blockCount, Int.toNat_natCast]
  rw [wp_bind]
  have hle_left : 0 + v.blocksLeft i ≤ 30 := by omega
  refine h.wp_writeEntries (q := v.ptr g i) hle_left
    (fun y _ hy => ⟨hg.ptr_lt (by omega), ?_⟩) (fun y z _ hyz hz heq => ?_) fun d₁ h₁ => ?_
  · exact (hg.dataBlock_ptr (by omega)).symm
  · have := hs.ptr_injective hr.bit (by omega) (by omega) heq
    omega
  -- what was written are the entries of the volume
  have hwritten : v.setDatas (v.ptr g i) (fun y => Block.ofEntries fun m =>
      removeEntry (pEntry ((List.range' 0 (v.blocks i)).map fun y => v.data (v.ptr g i y))) k
        (v.count i - 1) (128 * y + m)) 0 (v.blocksLeft i) =
      v.setDatas (v.ptr g i) (v.shiftedBlock g i k) 0 (v.blocksLeft i) := by
    refine Volume.setDatas_congr _ _ fun y _ hy => Block.ofEntries_congr fun m hm => ?_
    exact removeEntry_congr (by omega) (by omega) fun k' hk' => pEntry_eq hk'
  rw [hwritten] at h₁
  rw [wp_bind]
  refine h₁.wp_dropBlock hg hslots fun d₂ h₂ => ?_
  rw [wp_bind]
  refine h₂.wp_updateInode (hs.inode_lt hr.bit) ?_ fun _ d₃ _ h₃ => ?_
  · have hfits := h.toHolds.fits i
    refine Inode.Fits.setPtrs (hfits.withSize ?_) fun _ _ _ => by decide
    constructor <;> omega
  rw [wp_bind, hgj.blockCount, Int.toNat_natCast]
  refine h₃.wp_freeBlocks (q := v.ptr g j) (by have := hgj.blocks_le; omega)
    (fun y _ hy => ⟨hgj.ptr_lt (by omega), (hgj.dataBlock_ptr (by omega)).symm⟩) fun d₄ h₄ => ?_
  rw [wp_bind]
  refine h₄.wp_clearBit .inodes (hs.inode_lt hj) fun d₅ h₅ => ?_
  rw [wp_bind]
  refine h₅.wp_commit fun d₆ h₆ _ => ?_
  rw [wp_pure]
  refine hQ d₆ ?_
  rw [Volume.removed, List.range_eq_range']
  exact h₆

/-! ## The volume afterwards -/

namespace CanRemove

theorem count_pos (hr : CanRemove g v i name k j) : 3 ≤ v.count i := by
  have h2 := hr.two_le
  have hk := hr.lt_count
  omega

/-- In terms of nodes, the entry is there and `j` has none. -/
theorem removable (hr : CanRemove g v i name k j) : (v.node g).Removable i name j where
  entry := by
    rw [Namespace.entry_iff (Volume.node_of_dir hr.bit hr.dir), Volume.mem_drop_entries]
    exact ⟨k, hr.two_le, hr.lt_count, hr.cname, by rw [hr.inum, Int.toNat_natCast]⟩
  leaf := by
    rintro l y ⟨p, es, hj, hmem⟩
    have hdir := Volume.dir_of_node hj
    rw [Volume.node_of_dir (Volume.bit_of_node hj) hdir] at hj
    cases hj
    rw [List.drop_of_length_le (by simpa using hr.empty hdir)] at hmem
    cases hmem

theorem bit_child (hr : CanRemove g v i name k j) (hs : Sound g v) : v.inodeBit j = true := by
  obtain ⟨n, hn⟩ := hs.tree.target hr.removable.entry
  exact Volume.bit_of_node hn

/-- There is one entry with the name. -/
theorem unique (hr : CanRemove g v i name k j) (hs : Sound g v) {k' j' : Nat}
    (hr' : CanRemove g v i name k' j') : k' = k ∧ j' = j := by
  have hle := v.count_le_blocks i
  have hk := hr.lt_count
  have hk' := hr'.lt_count
  have hm : (v.entry g i k).Matches name := ⟨by rw [hr.inum]; omega, hr.cname⟩
  have hm' : (v.entry g i k').Matches name := ⟨by rw [hr'.inum]; omega, hr'.cname⟩
  obtain rfl : k' = k := hs.matches_unique hr.bit hr.dir (by omega) (by omega) hm' hm
  have hinum := hr.inum
  rw [hr'.inum] at hinum
  exact ⟨rfl, by omega⟩

theorem inode_self : (v.removed g i k j).inode i = v.parentInode i := by
  simp [Volume.removed, Volume.closed]

theorem inode_of_ne {l : Nat} (hl : l ≠ i) : (v.removed g i k j).inode l = v.inode l := by
  simp [Volume.removed, Volume.closed, hl]

theorem inodeBit_removed : (v.removed g i k j).inodeBit = Function.update v.inodeBit j false := rfl

/-- Other inodes keep their blocks. -/
theorem same (hr : CanRemove g v i name k j) (hs : Sound g v) {l : Nat}
    (hl : v.inodeBit l = true) (hli : l ≠ i) (hlj : l ≠ j) : Same g v (v.removed g i k j) l := by
  obtain ⟨hleft, -⟩ := blocksLeft_le ((hs.good hr.bit).slots hr.dir)
  refine ⟨by rw [inodeBit_removed, Function.update_of_ne hlj], inode_of_ne hli, fun x hx => ?_⟩
  refine (Volume.data_setDatas_of_ne _ _ _ _ fun y _ hy => ?_).trans rfl
  exact hs.ptr_ne hr.bit hl hli.symm (by omega) hx

theorem size_self : ((v.removed g i k j).inode i).size = 32 * (v.count i - 1 : Nat) := by
  rw [inode_self]
  rfl

theorem count_self : (v.removed g i k j).count i = v.count i - 1 := by
  rw [Volume.count, size_self]
  omega

theorem blocks_self : (v.removed g i k j).blocks i = v.blocksLeft i := by
  rw [Volume.blocks, size_self]
  unfold blocksFor Volume.blocksLeft
  omega

theorem ptr_self (hr : CanRemove g v i name k j) (hs : Sound g v) {x : Nat}
    (hx : x < v.blocksLeft i) : (v.removed g i k j).ptr g i x = v.ptr g i x := by
  have hle := (hs.good hr.bit).blocks_le
  obtain ⟨hleft, -⟩ := blocksLeft_le ((hs.good hr.bit).slots hr.dir)
  rw [Volume.ptr, inode_self, Volume.parentInode, Inode.ptr_setPtrs (by omega), if_neg (by omega)]
  rfl

theorem fitsInt_unused : Buffer.FitsInt (-1) := ⟨by decide, by decide⟩

/-- The slots of the parent's remaining blocks. -/
theorem entry_self (hr : CanRemove g v i name k j) (hs : Sound g v) {m : Nat}
    (hm : m < 128 * v.blocksLeft i) : (v.removed g i k j).entry g i m =
      removeEntry (v.entry g i) k (v.count i - 1) m := by
  obtain ⟨hleft, -⟩ := blocksLeft_le ((hs.good hr.bit).slots hr.dir)
  have hdata : (v.removed g i k j).data (v.ptr g i (m / 128)) = v.shiftedBlock g i k (m / 128) :=
    Volume.data_setDatas _ _ _
      (fun y _ hy heq => hs.ptr_injective hr.bit (by omega) (by omega) heq) (Nat.zero_le _)
      (by omega)
  rw [Volume.entry, hr.ptr_self hs (by omega), hdata, Volume.shiftedBlock,
    Block.entry_ofEntries _ (by omega), show 128 * (m / 128) + m % 128 = m by omega]
  rw [removeEntry]
  split
  · exact fitsInt_unused
  · split <;> exact Block.fitsInt_entry _ _

theorem entry_of_lt (hr : CanRemove g v i name k j) (hs : Sound g v) {m : Nat}
    (hm : m < v.count i - 1) : (v.removed g i k j).entry g i m =
      if k ≤ m then v.entry g i (m + 1) else v.entry g i m := by
  rw [hr.entry_self hs (by unfold Volume.blocksLeft; omega), removeEntry, if_neg (by omega)]
  simp [hm]

/-- The directory's entries, without the one that is removed. -/
theorem entries_self (hr : CanRemove g v i name k j) (hs : Sound g v) :
    (v.removed g i k j).entries g i = (v.entries g i).eraseIdx k := by
  have hk := hr.lt_count
  apply List.ext_getElem
  · rw [Volume.length_entries, count_self, List.length_eraseIdx, Volume.length_entries, if_pos hk]
  · intro m h1 h2
    rw [Volume.length_entries, count_self] at h1
    rw [List.getElem_eraseIdx]
    simp only [Volume.entries, List.getElem_map, List.getElem_range]
    rw [hr.entry_of_lt hs h1]
    by_cases hkm : k ≤ m
    · rw [if_pos hkm, dif_neg (by omega)]
    · rw [if_neg hkm, dif_pos (by omega)]

theorem slots_self (hr : CanRemove g v i name k j) (hs : Sound g v) :
    GoodSlots g (v.removed g i k j) i := by
  have hslots := (hs.good hr.bit).slots hr.dir
  have hcount := hr.count_pos
  have h2 := hr.two_le
  refine ⟨?_, ?_, ?_, ?_, fun m hm hlt => ?_, fun m hm hlt => ?_⟩
  · rw [size_self]
    exact Int.dvd_mul_right _ _
  · rw [size_self]
    omega
  · rw [hr.entry_of_lt hs (by omega), if_neg (by omega)]
    exact hslots.self
  · rw [hr.entry_of_lt hs (by omega), if_neg (by omega)]
    exact hslots.parent
  · rw [count_self] at hlt
    rw [hr.entry_of_lt hs hlt]
    split
    · exact hslots.live (m + 1) (by omega) (by omega)
    · exact hslots.live m hm (by omega)
  · rw [count_self] at hm
    rw [blocks_self] at hlt
    obtain ⟨hleft, -⟩ := blocksLeft_le hslots
    rw [hr.entry_self hs hlt, removeEntry]
    split
    · rfl
    · rw [if_neg (by omega)]
      exact hslots.stale m (by omega) (by omega)

theorem good_self (hr : CanRemove g v i name k j) (hs : Sound g v) :
    GoodInode g (v.removed g i k j) i := by
  have hg := hs.good hr.bit
  have hslots := hg.slots hr.dir
  have hcount := hslots.size_eq
  have hle := hg.blocks_le
  obtain ⟨hleft, -⟩ := blocksLeft_le hslots
  refine ⟨?_, ?_, ?_, fun x hx => ?_, fun _ => hr.slots_self hs⟩
  · rw [inode_self]
    exact hg.type
  · rw [size_self]
    omega
  · have hmax := hg.size_le
    rw [size_self]
    omega
  · rw [blocks_self] at hx
    rw [inode_self, Volume.parentInode, Inode.ptr_setPtrs (by omega), if_neg (by omega)]
    exact hg.region x (by omega)

theorem owned_self (hr : CanRemove g v i name k j) (hs : Sound g v) :
    (v.removed g i k j).owned g i = (List.range (v.blocksLeft i)).map (v.ptr g i) := by
  have hbit : (v.removed g i k j).inodeBit i = true := by
    rw [inodeBit_removed, Function.update_of_ne hr.removable.ne]
    exact hr.bit
  rw [Volume.owned, if_pos hbit, blocks_self]
  exact List.map_congr_left fun x hx => hr.ptr_self hs (List.mem_range.mp hx)

theorem owned_eq (hr : CanRemove g v i name k j) (hs : Sound g v) :
    (v.removed g i k j).owned g = Function.update (Function.update (v.owned g) i
      ((List.range (v.blocksLeft i)).map (v.ptr g i))) j [] := by
  funext l
  by_cases hlj : l = j
  · subst hlj
    simp [Volume.owned, inodeBit_removed]
  rw [Function.update_of_ne hlj]
  by_cases hli : l = i
  · subst hli
    rw [Function.update_self, hr.owned_self hs]
  rw [Function.update_of_ne hli]
  cases hb : v.inodeBit l with
  | true => exact (hr.same hs hb hli hlj).owned
  | false =>
      have hb' : (v.removed g i k j).inodeBit l = false := by
        rw [inodeBit_removed, Function.update_of_ne hlj, hb]
      rw [Volume.owned_of_clear hb, Volume.owned_of_clear hb']

/-- The bitmap once the parent is done. -/
theorem owned_closed (hr : CanRemove g v i name k j) (hs : Sound g v) :
    Owned (v.closed g i k).dataBit (Function.update (v.owned g) i
      ((List.range (v.blocksLeft i)).map (v.ptr g i))) := by
  obtain ⟨hleft, -⟩ := blocksLeft_le ((hs.good hr.bit).slots hr.dir)
  rw [← Nat.min_eq_left hleft]
  exact hs.give hr.bit (v.blocksLeft i) fun _ => rfl

theorem owned (hr : CanRemove g v i name k j) (hs : Sound g v) :
    Owned (v.removed g i k j).dataBit ((v.removed g i k j).owned g) := by
  have hself : Function.update (v.owned g) i ((List.range (v.blocksLeft i)).map (v.ptr g i)) j =
      (List.range (v.blocks j)).map (v.ptr g j) := by
    rw [Function.update_of_ne hr.removable.ne.symm, Volume.owned_of_bit (hr.bit_child hs)]
  have hbit : ∀ c, (v.removed g i k j).dataBit c = if c ∈ (List.range (v.blocks j)).map (v.ptr g j)
      then false else (v.closed g i k).dataBit c := fun _ => rfl
  rw [hr.owned_eq hs]
  refine (hr.owned_closed hs).give (List.nil_sublist _) fun c => ?_
  rw [hbit, hself]
  split
  · rename_i hc
    exact iff_of_false (by simp) fun hkept => List.not_mem_nil (hkept.2 hc)
  · rename_i hc
    exact ⟨fun hu => ⟨hu, fun hown => absurd hown hc⟩, fun hu => hu.1⟩

theorem drop_eraseIdx {α : Type*} {es : List α} {n m : Nat} (h : n ≤ m) :
    (es.eraseIdx m).drop n = (es.drop n).eraseIdx (m - n) := by
  apply List.ext_getElem?
  intro x
  rw [List.getElem?_drop, List.getElem?_eraseIdx, List.getElem?_eraseIdx, List.getElem?_drop,
    List.getElem?_drop]
  by_cases hx : x < m - n
  · rw [if_pos (by omega), if_pos hx]
  · rw [if_neg (by omega), if_neg hx, Nat.add_assoc]

/-- In terms of nodes, a leaf was removed. -/
theorem node_eq (hr : CanRemove g v i name k j) (hs : Sound g v) :
    (v.removed g i k j).node g = (v.node g).unlink i name j := by
  have h2 := hr.two_le
  have hk := hr.lt_count
  have hrem := hr.removable
  funext l
  by_cases hlj : l = j
  · subst hlj
    rw [Namespace.unlink_self]
    exact Volume.node_of_clear (by simp [inodeBit_removed])
  by_cases hli : l = i
  · subst hli
    have hbit : (v.removed g l k j).inodeBit l = true := by
      rw [inodeBit_removed, Function.update_of_ne hlj]
      exact hr.bit
    have hdir : ((v.removed g l k j).inode l).type = ufsDirectory := by
      rw [inode_self]
      exact hr.dir
    have hold := Volume.node_of_dir (g := g) hr.bit hr.dir
    have hpos := hr.count_pos
    have hlen : k - 2 < ((v.entries g l).drop 2).length := by
      rw [List.length_drop, Volume.length_entries]
      omega
    have hget : ((v.entries g l).drop 2)[k - 2].1 = name := by
      simp only [Volume.entries, List.getElem_drop, List.getElem_map, List.getElem_range,
        show 2 + (k - 2) = k by omega]
      exact hr.cname
    rw [hrem.unlink_parent hold, Volume.node_of_dir hbit hdir, hr.entry_of_lt hs (by omega),
      if_neg (by omega), hr.entries_self hs,
      Namespace.eraseP_eq_eraseIdx (hs.tree.names hold) hlen hget, drop_eraseIdx h2]
  · rw [Namespace.unlink_of_ne hli hlj]
    cases hb : v.inodeBit l with
    | true => exact (hr.same hs hb hli hlj).node hs.good
    | false =>
        have hb' : (v.removed g i k j).inodeBit l = false := by
          rw [inodeBit_removed, Function.update_of_ne hlj, hb]
        rw [Volume.node_of_clear hb, Volume.node_of_clear hb']

theorem sound (hr : CanRemove g v i name k j) (hs : Sound g v) :
    Sound g (v.removed g i k j) where
  inode_lt := by
    intro l hl
    rw [inodeBit_removed, Function.update_apply] at hl
    split at hl
    · cases hl
    · exact hs.inode_lt hl
  good := by
    intro l hl
    rw [inodeBit_removed, Function.update_apply] at hl
    split at hl
    · cases hl
    · rename_i hlj
      by_cases hli : l = i
      · subst hli
        exact hr.good_self hs
      · exact (hr.same hs hl hli hlj).good (hs.good hl)
  owned := hr.owned hs
  tree := by
    rw [hr.node_eq hs]
    exact hr.removable.isTree hs.tree

end CanRemove

/-! ## All calls of `unlink` -/

/-- The search for the entry to remove, on a sound directory. -/
theorem find_pEntry (hs : GoodSlots g v i) {o : Option Nat}
    (ho : (List.range ((v.inode i).size / 32).toNat).find? (fun k => decide
      ((pEntry ((List.range' 0 (v.blocks i)).map fun y => v.data (v.ptr g i y)) k).inum ≠ -1 ∧
        name = (pEntry ((List.range' 0 (v.blocks i)).map fun y => v.data (v.ptr g i y)) k).cname)) =
      o) :
    match o with
    | some k => k < v.count i ∧ (v.entry g i k).cname = name
    | none => ∀ k < v.count i, (v.entry g i k).cname ≠ name := by
  have hle := v.count_le_blocks i
  cases o with
  | some k =>
      obtain ⟨hp, hmem⟩ := And.intro (List.find?_some ho) (List.mem_of_find?_eq_some ho)
      have hlt : k < v.count i := List.mem_range.mp hmem
      simp only [decide_eq_true_eq] at hp
      rw [pEntry_eq (by omega)] at hp
      exact ⟨hlt, hp.2.symm⟩
  | none =>
      intro k hk hname
      have hno := List.find?_eq_none.mp ho k (List.mem_range.mpr hk)
      simp only [decide_eq_true_eq] at hno
      rw [pEntry_eq (by omega)] at hno
      have hused := hs.used hk
      exact hno ⟨by omega, hname.symm⟩

/-- A slot with a name other than `.` and `..` is an entry of the directory. -/
theorem Sound.entry_of_slot (hs : Sound g v) (hb : v.inodeBit i = true)
    (hdir : (v.inode i).type = ufsDirectory) (hk : k < v.count i)
    (hname : (v.entry g i k).cname = name) (hdots : ¬ (name = dot ∨ name = dotdot)) :
    2 ≤ k ∧ ∃ j : Nat, (v.entry g i k).inum = j ∧ v.inodeBit j = true ∧
      (v.node g).Entry i name j := by
  have hslots := (hs.good hb).slots hdir
  have h2 : 2 ≤ k := by
    by_contra hlt
    rcases (show k = 0 ∨ k = 1 by omega) with rfl | rfl
    · exact hdots (.inl (hname.symm.trans hslots.self.1))
    · exact hdots (.inr (hname.symm.trans hslots.parent.1))
  obtain ⟨j, hj⟩ := Int.eq_ofNat_of_zero_le (hslots.used hk)
  have hentry : (v.node g).Entry i name j := by
    rw [Namespace.entry_iff (Volume.node_of_dir hb hdir), Volume.mem_drop_entries]
    exact ⟨k, h2, hk, hname, by rw [hj, Int.toNat_natCast]⟩
  obtain ⟨n, hn⟩ := hs.tree.target hentry
  exact ⟨h2, j, hj, Volume.bit_of_node hn, hentry⟩

/-- What a call of `unlink` returns, and what it does, case by case. -/
theorem wp_unlink_cases (h : Idle g d v) (hs : Sound g v) {p : Int} {Q : Int → Disk → Prop}
    (hdots : name = dot ∨ name = dotdot → Q (-eUnlinkNotAllowed) d)
    (hdir : (∀ i : Nat, p = i → ∀ q es, v.node g i ≠ some (.dir q es)) → Q (-eInvalidInode) d)
    (hname : (name = [] ∨ ∀ i k : Nat, p = i → k < v.count i → (v.entry g i k).cname ≠ name) →
      ∀ d', Idle g d' v → d'.image = d.image → Q (-eInvalidName) d')
    (hfull : ∀ i j : Nat, p = i → (v.node g).Entry i name j →
      (v.inode j).type = ufsDirectory ∧ 2 < v.count j → ∀ d', Idle g d' v →
      d'.image = d.image → Q (-eDirNotEmpty) d')
    (hok : ∀ i k j : Nat, p = i → CanRemove g v i name k j → ∀ d',
      Idle g d' (v.removed g i k j) → Q 0 d') :
    wp (unlink p name) Q d := by
  rw [unlink]
  by_cases hdot : name = dot ∨ name = dotdot
  · rw [if_pos hdot, wp_pure]
    exact hdots hdot
  rw [if_neg hdot]
  by_cases hnil : name = []
  · rw [if_pos hnil, wp_pure]
    exact hname (.inl hnil) d h rfl
  rw [if_neg hnil, wp_bind, wp_stat h.toHolds]
  rcases hs.stat_cases p with ⟨i, rfl, hb, hstat⟩ | ⟨hnone, hstat⟩
  · have hg := hs.good hb
    rw [hstat]
    dsimp only
    by_cases ht : (v.inode i).type = ufsDirectory
    swap
    · rw [if_pos (.inl ht), wp_pure]
      refine hdir fun j hj q es hnode => ?_
      obtain rfl : i = j := by omega
      exact ht (Volume.dir_of_node hnode)
    have hslots := hg.slots ht
    have hcond : ¬ ((v.inode i).type ≠ ufsDirectory ∨ (v.inode i).size < 64) := by
      rintro (ht' | hsize)
      · exact ht' ht
      · exact absurd hslots.size_ge (by omega)
    rw [if_neg hcond, wp_bind, wp_readSuperBlock h.toHolds, wp_bind]
    refine h.wp_beginTransaction fun d₁ h₁ => ?_
    rw [wp_bind, hg.blockCount, Int.toNat_natCast]
    refine wp_readBlocks h₁.toHolds hg (Nat.zero_add _) ?_
    -- from here on every refusal is a rollback
    have hundo : ∀ r, (∀ d', Idle g d' v → d'.image = d.image → Q r d') →
        wp (do rollback; return r) Q d₁ := by
      intro r hr
      refine h₁.wp_rollback_pure fun d' hd' him => ?_
      rw [h.volume] at hd'
      exact hr d' hd' him
    generalize ho : (List.range ((v.inode i).size / 32).toNat).find? _ = o
    have hfind := find_pEntry hslots ho
    cases o with
    | none =>
        refine hundo _ (hname (.inr fun i' k hi hk => ?_))
        obtain rfl : i = i' := by omega
        exact hfind k hk
    | some k =>
        obtain ⟨hlt, hcname⟩ := hfind
        have hle := v.count_le_blocks i
        obtain ⟨h2, j, hj, hbj, hentry⟩ := hs.entry_of_slot hb ht hlt hcname hdot
        dsimp only
        rw [pEntry_eq (by omega), hj, if_neg (by omega), wp_bind, wp_stat h₁.toHolds,
          hs.stat_of_bit hbj]
        dsimp only
        rw [wp_bind]
        refine wp_isFullDirectory h₁.toHolds (hs.good hbj) ?_
        by_cases hmore : (v.inode j).type = ufsDirectory ∧ 2 < v.count j
        · rw [decide_eq_true hmore, if_pos rfl]
          exact hundo _ (hfull i j rfl hentry hmore)
        · rw [decide_eq_false hmore, if_neg (by simp), Int.toNat_natCast]
          have hr : CanRemove g v i name k j := ⟨hb, ht, hnil, h2, hlt, hcname, hj, fun htj => by
            by_contra hgt
            exact hmore ⟨htj, by omega⟩⟩
          exact h₁.wp_removeAt hs hr hbj fun d' hd' => hok i k j rfl hr d' hd'
  · rw [hstat, wp_pure]
    exact hdir fun i hi q es hnode => by simp [hnone i hi] at hnode

/-- Every call of `unlink` returns: it fails and changes nothing, or it has removed the
entry. -/
theorem wp_unlink (h : Idle g d v) (hs : Sound g v) {p : Int} {Q : Int → Disk → Prop}
    (hfail : ∀ r < 0, (∀ i k j : Nat, p = i → ¬ CanRemove g v i name k j) → ∀ d', Idle g d' v →
      d'.image = d.image → Q r d')
    (hok : ∀ i k j : Nat, p = i → CanRemove g v i name k j → ∀ d',
      Idle g d' (v.removed g i k j) → Q 0 d') :
    wp (unlink p name) Q d := by
  refine wp_unlink_cases h hs (fun hdots => ?_) (fun hdir => ?_) (fun hname d' hd' him => ?_)
    (fun i j hi hentry hmore d' hd' him => ?_) hok
  · refine hfail _ (by decide) (fun i k j _ hr => ?_) d h rfl
    have hlive := ((hs.good hr.bit).slots hr.dir).live k hr.two_le hr.lt_count
    rcases hdots with rfl | rfl
    · exact hlive.ne_dot hr.cname
    · exact hlive.ne_dotdot hr.cname
  · exact hfail _ (by decide)
      (fun i k j hi hr => hdir i hi _ _ (Volume.node_of_dir (g := g) hr.bit hr.dir)) d h rfl
  · refine hfail _ (by decide) (fun i k j hi hr => ?_) d' hd' him
    rcases hname with hnil | hno
    · exact hr.name_ne hnil
    · exact hno i k hi hr.lt_count hr.cname
  · refine hfail _ (by decide) (fun i' k' j' hi' hr => ?_) d' hd' him
    obtain rfl : i = i' := by omega
    -- only this child can be meant
    have hc := hs.tree.child_eq_some.mpr hr.removable.entry
    rw [hs.tree.child_eq_some.mpr hentry, Option.some.injEq] at hc
    have hempty := hr.empty (hc ▸ hmore.1)
    rw [← hc] at hempty
    omega

/-- `unlink` of an entry that may be removed. -/
theorem CanRemove.wp_unlink (hr : CanRemove g v i name k j) (h : Idle g d v) (hs : Sound g v)
    {Q : Int → Disk → Prop} (hQ : ∀ d', Idle g d' (v.removed g i k j) → Q 0 d') :
    wp (LocalFileSystem.unlink i name) Q d := by
  refine Gunrock.wp_unlink h hs (fun _ _ hno => absurd hr (hno i k j rfl))
    fun i' k' j' hi hr' d' hd' => ?_
  obtain rfl : i = i' := by omega
  obtain ⟨rfl, rfl⟩ := hr.unique hs hr'
  exact hQ d' hd'

end Gunrock
