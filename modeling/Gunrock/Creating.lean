import Gunrock.Reading
import Mathlib.Data.List.GetD

/-!
# Creating an entry

`create` on a sound volume.  Like `write` it is described by the volume it leaves behind, in
closed form and in the order of the code: the blocks and the inode are taken, the new
directory's block is filled, the entry is appended to the parent (`Volume.append`), and the
new inode is set up (`Volume.created`).

Where the free list ends up does not depend on the parent: a new directory takes the first
free block, and a parent whose blocks are full the next one.
-/

namespace Gunrock

open Disk LocalFileSystem Wp

variable {g : Geometry} {im : Nat → Block} {d : Disk} {v w : Volume} {i n : Nat} {name : Bytes}

/-! ## Appending an entry -/

/-- All slots of the directory's blocks are within its size. -/
def Volume.Full (v : Volume) (i : Nat) : Prop := v.count i = 128 * v.blocks i

instance (v : Volume) (i : Nat) : Decidable (v.Full i) := inferInstanceAs (Decidable (_ = _))

namespace Volume

variable (g : Geometry) (w : Volume) (i : Nat) (name : Bytes) (n : Nat)

/-- The block with the first slot past the directory's size, once that is filled. -/
def filledBlock : Block :=
  let b := w.data (w.ptr g i (w.count i / 128))
  b.setEntry (w.count i % 128)
    ⟨(b.entry (w.count i % 128)).name.strcpy (Buffer.cStr name), n⟩

/-- The data block that is taken next. -/
def newBlock : Nat := (w.freeData g).headD 0

/-- An entry in the last block. -/
def fillEntry : Volume :=
  (w.setData (w.ptr g i (w.count i / 128)) (w.filledBlock g i name n)).setInode i
    { w.inode i with size := (1 + w.count i : Nat) * 32 }

/-- An entry in the new block `k`. -/
def extendEntry (k : Nat) : Volume :=
  ((w.setDataBit k true).setData k (entryBlock name n)).setInode i
    ({ w.inode i with size := (1 + w.count i : Nat) * 32 }.setPtr (w.blocks i) (g.dataBlock k))

/-- `name` is appended to directory `i`, with the first free block if need be. -/
def append : Volume :=
  if w.Full i then w.extendEntry g i name n (w.newBlock g)
  else w.fillEntry g i name n

end Volume

theorem Volume.length_cStr_lt (h : name.length < dirEntNameSize) :
    (Buffer.cStr name).length < 28 := (Buffer.length_cStr_le name).trans_lt h

/-- The slot search of `create` looks for the first slot past the directory's size. -/
theorem GoodSlots.findSlot (hs : GoodSlots g v i) {x : Nat} (hx : x < v.blocks i) :
    LocalFileSystem.findSlot (v.data (v.ptr g i x)) (v.inode i).size x =
      if v.count i < 128 * (x + 1) then some (v.count i % 128) else none := by
  have hsize := hs.size_eq
  have hblocks := hs.blocks_eq
  rw [LocalFileSystem.findSlot]
  have hused : ∀ j < 128, 128 * x + j < v.count i →
      (decide ((v.inode i).size ≤ 32 * (128 * x + j : Nat)) ||
        ((v.data (v.ptr g i x)).entry j).inum == -1) = false := by
    intro j hj hlt
    have hnonneg := hs.used hlt
    rw [entry_block v i x hj]
    simp only [Bool.or_eq_false_iff, decide_eq_false_iff_not, beq_eq_false_iff_ne]
    constructor <;> omega
  split
  · rename_i hlt
    rw [List.find?_range_eq_some]
    refine ⟨?_, List.mem_range.mpr (by omega), fun j hj => ?_⟩
    · simp only [Bool.or_eq_true, decide_eq_true_eq]
      left
      omega
    · rw [hused j (by omega) (by omega)]
      rfl
  · rename_i hge
    rw [List.find?_range_eq_none]
    intro j hj
    rw [hused j hj (by omega)]
    rfl

/-- The slot search and what it writes, from block `x` on. -/
theorem Active.wp_fillSlot (h : Active g im d w) (hg : GoodInode g w i) (hs : GoodSlots g w i)
    {m x : Nat} (hm : x + m = w.blocks i) (hx : 128 * x ≤ w.count i) {Q : Option Nat → Disk → Prop}
    (hfull : w.Full i → Q none d)
    (hfill : ¬ w.Full i → ∀ d', Active g im d'
      (w.setData (w.ptr g i (w.count i / 128)) (w.filledBlock g i name n)) →
      Q (some (w.count i)) d') :
    wp (fillSlot (w.inode i) name n m x) Q d := by
  have hle := hg.blocks_le
  have hcount := w.count_le_blocks i
  induction m generalizing x with
  | zero =>
      rw [fillSlot, wp_pure]
      exact hfull (by unfold Volume.Full; omega)
  | succ m ih =>
      simp only [fillSlot, wp_bind]
      rw [wp_directAt (by omega), wp_readPtr h.toHolds hg (by omega), hs.findSlot (by omega)]
      by_cases hlt : w.count i < 128 * (x + 1)
      · rw [if_pos hlt]
        dsimp only
        have hxc : x = w.count i / 128 := by omega
        rw [wp_bind, ← hg.dataBlock_ptr (by omega)]
        refine h.wp_writeDataBlock (hg.ptr_lt (by omega)) fun d' hd' => ?_
        rw [wp_pure, show 128 * x + w.count i % 128 = w.count i by omega]
        refine hfill (by unfold Volume.Full; omega) d' ?_
        subst hxc
        exact hd'
      · rw [if_neg hlt]
        exact ih (by omega) (by omega)

/-- A directory whose blocks are full gets another one, if it can have one and there is one. -/
theorem Active.wp_growParent (h : Active g im d w) (hg : GoodInode g w i)
    (hi : i < g.numInodes) (hfull : w.Full i) {Q : Bool → Disk → Prop}
    (hno : 30 ≤ w.blocks i ∨ w.freeData g = [] → ∀ d', Idle g d' (g.volume im) → d'.image = im →
      Q false d')
    (hok : w.blocks i < 30 → w.freeData g ≠ [] → ∀ d', Active g im d' (w.append g i name n) →
      Q true d') :
    wp (growParent g.super i (w.blocks i) name n) Q d := by
  have hle := hg.blocks_le
  have hcount : w.count i = 128 * w.blocks i := hfull
  have hcast : (1 + 128 * (w.blocks i : Int)) * 32 = (1 + w.count i : Nat) * 32 := by omega
  rw [growParent]
  by_cases hmax : ((directPtrs : Nat) : Int) ≤ w.blocks i
  · rw [if_pos hmax]
    simp only [directPtrs] at hmax
    exact h.wp_rollback_pure (hno (.inl (by omega)))
  · rw [if_neg hmax, wp_bind]
    simp only [directPtrs] at hmax
    refine h.wp_allocateData (fun hnil d' hd' him => ?_) fun k ks d₁ hcons h₁ => ?_
    · rw [wp_pure]
      exact hno (.inr hnil) d' hd' him
    · have hk : k < g.numData := (FreeList.head_free hcons).1
      dsimp only
      rw [wp_bind, g.unsigned_dataBlock hk, g.super_add hk]
      refine h₁.wp_writeDataBlock hk fun d₂ h₂ => ?_
      rw [if_neg (by omega), wp_bind, Int.toNat_natCast]
      refine h₂.wp_updateInode hi ?_ fun _ d₃ _ h₃ => ?_
      · refine Inode.Fits.setPtr ((h.toHolds.fits i).withSize ?_) ?_
        · rw [hcast]
          constructor <;> omega
        · have hb := g.bounds
          unfold Counts.totalBlocks at hb
          unfold Geometry.dataBlock
          omega
      · rw [wp_pure]
        refine hok (by omega) (by simp [hcons]) d₃ ?_
        rw [Volume.append, if_pos hfull, Volume.newBlock, hcons]
        simpa [Volume.extendEntry, hcast] using h₃

/-- `appendEntry`: the entry is made, or there is no room for it and the transaction is
undone. -/
theorem Active.wp_appendEntry (h : Active g im d w) (hg : GoodInode g w i) (hs : GoodSlots g w i)
    (hi : i < g.numInodes) {Q : Bool → Disk → Prop}
    (hno : w.Full i → (30 ≤ w.blocks i ∨ w.freeData g = []) → ∀ d', Idle g d' (g.volume im) →
      d'.image = im → Q false d')
    (hok : (w.Full i → w.blocks i < 30 ∧ w.freeData g ≠ []) → ∀ d',
      Active g im d' (w.append g i name n) → Q true d') :
    wp (appendEntry g.super i (w.inode i) name n) Q d := by
  have hle := hg.blocks_le
  have hsize := hs.size_eq
  have hcount := w.count_le_blocks i
  have hfits := h.toHolds.fits i
  have hint : Buffer.FitsInt ((1 + w.count i : Nat) * 32) := by
    constructor <;> omega
  simp only [appendEntry, hg.blockCount, Int.toNat_natCast]
  rw [wp_bind]
  refine h.wp_fillSlot hg hs (Nat.zero_add _) (Nat.zero_le _) (fun hfull => ?_)
    fun hfull d₁ h₁ => ?_
  · exact h.wp_growParent hg hi hfull (hno hfull) fun h1 h2 => hok fun _ => ⟨h1, h2⟩
  · dsimp only
    have hlt : (w.inode i).size < (1 + (w.count i : Int)) * 32 := by omega
    rw [if_pos hlt, wp_bind]
    refine h₁.wp_updateInode hi ?_ fun _ d₂ _ h₂ => ?_
    · refine hfits.withSize ?_
      exact_mod_cast hint
    · rw [wp_pure]
      refine hok (fun hf => absurd hf hfull) d₂ ?_
      rw [Volume.append, if_neg hfull]
      simpa [Volume.fillEntry] using h₂

/-! ## The volume with the new entry -/

namespace Volume

variable (g : Geometry) (v : Volume) (i : Nat) (type : Int) (name : Bytes)

/-- The number of the new inode. -/
def newInum : Nat := (v.freeInodes g).headD 0

/-- The inode is taken, and for a directory its first block is taken and filled. -/
def withFirst : Volume :=
  if type = ufsDirectory then
    ((v.setDataBit (v.newBlock g) true).setInodeBit (v.newInum g) true).setData (v.newBlock g)
      (directoryBlock (v.newInum g) i)
  else v.setInodeBit (v.newInum g) true

/-- The volume after `create`. -/
def created : Volume :=
  let w := (v.withFirst g i type).append g i name (v.newInum g)
  w.setInode (v.newInum g)
    (LocalFileSystem.newInode g.super type (v.newBlock g) (w.inode (v.newInum g)))

/-- How many data blocks `create` takes. -/
def need : Nat := (if type = ufsDirectory then 1 else 0) + (if v.Full i then 1 else 0)

end Volume

/-- There is room for a new entry in directory `i`. -/
structure CanCreate (g : Geometry) (v : Volume) (i : Nat) (type : Int) : Prop where
  bit : v.inodeBit i = true
  dir : (v.inode i).type = ufsDirectory
  inode : v.freeInodes g ≠ []
  data : v.need i type ≤ (v.freeData g).length
  blocks : v.Full i → v.blocks i < 30

section CreateEntry

variable {type : Int}

theorem newInum_free (h : v.freeInodes g ≠ []) :
    v.newInum g < g.numInodes ∧ v.inodeBit (v.newInum g) = false := by
  obtain ⟨n, ns, hcons⟩ := List.exists_cons_of_ne_nil h
  rw [Volume.newInum, hcons]
  have hhead := FreeList.head_free hcons
  exact ⟨hhead.1, hhead.2.1⟩

theorem newBlock_free (h : v.freeData g ≠ []) :
    v.newBlock g < g.numData ∧ v.dataBit (v.newBlock g) = false := by
  obtain ⟨k, ks, hcons⟩ := List.exists_cons_of_ne_nil h
  rw [Volume.newBlock, hcons]
  have hhead := FreeList.head_free hcons
  exact ⟨hhead.1, hhead.2.1⟩

theorem freeData_withFirst (h : type = ufsDirectory → v.freeData g ≠ []) :
    (v.withFirst g i type).freeData g =
      (v.freeData g).drop (if type = ufsDirectory then 1 else 0) := by
  rw [Volume.withFirst]
  split
  · rename_i hd
    obtain ⟨k, ks, hcons⟩ := List.exists_cons_of_ne_nil (h hd)
    rw [hcons, Volume.newBlock, hcons]
    exact freeData_setDataBit hcons
  · rfl

/-- Taking the inode and the first block leaves the allocated inodes alone. -/
theorem same_withFirst (hs : Sound g v) (hn : v.freeInodes g ≠ [])
    (hd : type = ufsDirectory → v.freeData g ≠ []) {j : Nat} (hj : v.inodeBit j = true) :
    Same g v (v.withFirst g i type) j := by
  have hne : j ≠ v.newInum g := by
    rintro rfl
    simp [(newInum_free hn).2] at hj
  rw [Volume.withFirst]
  split
  · rename_i hdir
    refine ⟨by simp [hne], rfl, fun x hx => ?_⟩
    simp [hs.ptr_ne_free hj hx (newBlock_free (hd hdir)).2]
  · exact ⟨by simp [hne], rfl, fun x hx => rfl⟩

theorem fitsInt_type {type : Int} (ht : type = ufsDirectory ∨ type = ufsRegularFile) :
    Buffer.FitsInt type := by
  rcases ht with rfl | rfl
  · constructor <;> decide
  · constructor <;> decide

theorem fits_newInode {inode : Inode} (hf : inode.Fits) (htype : Buffer.FitsInt type) (k : Nat) :
    (newInode g.super type k inode).Fits := by
  have hfits : ∀ z : Int, Buffer.FitsInt z → ({ inode with type := type, size := z } : Inode).Fits :=
    fun z hz => ⟨htype, hz, hf.direct⟩
  rw [newInode]
  split
  · exact (hfits 64 ⟨by decide, by decide⟩).setPtr (Buffer.unsigned_lt _)
  · exact hfits 0 ⟨by decide, by decide⟩

/-- The block that is passed for a file is not used. -/
theorem newInode_congr {k k' : Nat} (hk : type = ufsDirectory → k = k') :
    newInode g.super type k = newInode g.super type k' := by
  funext inode
  rw [newInode, newInode]
  split
  · rename_i hty
    rw [hk hty]
  · rfl

/-- With a block for a new directory, and another one if the parent is full, there are enough. -/
theorem need_le (hd : type = ufsDirectory → v.freeData g ≠ [])
    (hroom : v.Full i → (v.withFirst g i type).freeData g ≠ []) :
    v.need i type ≤ (v.freeData g).length := by
  rw [Volume.need]
  by_cases hf : v.Full i
  · have hne := hroom hf
    rw [freeData_withFirst hd, ne_eq, List.drop_eq_nil_iff] at hne
    rw [if_pos hf]
    omega
  · rw [if_neg hf]
    split
    · rename_i hty
      have hpos := List.length_pos_iff.mpr (hd hty)
      omega
    · omega

/-- From the new directory's block on. -/
theorem Active.wp_enter (h : Active g im d (v.withFirst g i type)) (hs : Sound g v)
    (hb : v.inodeBit i = true) (hdir : (v.inode i).type = ufsDirectory)
    (ht : Buffer.FitsInt type) (hn : v.freeInodes g ≠ [])
    (hd : type = ufsDirectory → v.freeData g ≠ []) {k : Nat}
    (hk : type = ufsDirectory → k = v.newBlock g) {Q : Int → Disk → Prop}
    (hfail : ¬ CanCreate g v i type → ∀ d', Idle g d' (g.volume im) → d'.image = im →
      Q (-eNotEnoughSpace) d')
    (hok : CanCreate g v i type → ∀ d', Idle g d' (v.created g i type name) →
      Q (v.newInum g) d') :
    wp (do
      if ← appendEntry g.super i (v.inode i) name (v.newInum g) then
        let _ ← updateInode g.super (v.newInum g) (newInode g.super type k)
        commit
        return ((v.newInum g : Nat) : Int)
      else
        return -eNotEnoughSpace) Q d := by
  have hsame := same_withFirst (i := i) hs hn hd hb
  have hfull : (v.withFirst g i type).Full i ↔ v.Full i := by
    rw [Volume.Full, Volume.Full, hsame.count, hsame.blocks]
  rw [wp_bind, ← hsame.inode]
  refine h.wp_appendEntry (hsame.good (hs.good hb)) (hsame.slots ((hs.good hb).slots hdir))
    (hs.inode_lt hb) (fun hf hno d' hd' him => ?_) fun hroom d₁ h₁ => ?_
  · rw [if_neg (by simp), wp_pure]
    refine hfail (fun hc => ?_) d' hd' him
    rw [hsame.blocks, freeData_withFirst hd, List.drop_eq_nil_iff] at hno
    have hdata := hc.data
    have hblocks := hc.blocks (hfull.mp hf)
    rw [Volume.need, if_pos (hfull.mp hf)] at hdata
    omega
  · rw [if_pos rfl, wp_bind]
    refine h₁.wp_updateInode (newInum_free hn).1 (fits_newInode (h₁.toHolds.fits _) ht k)
      fun _ d₂ _ h₂ => ?_
    rw [wp_bind]
    refine h₂.wp_commit fun d₃ h₃ _ => ?_
    rw [wp_pure]
    refine hok ⟨hb, hdir, hn, need_le hd fun hf => (hroom (hfull.mpr hf)).2, fun hf => ?_⟩ d₃ ?_
    · have hblocks := (hroom (hfull.mpr hf)).1
      rwa [hsame.blocks] at hblocks
    · rw [Volume.created]
      rwa [newInode_congr hk] at h₃

/-- `create`, for a name that the directory does not have: it makes the entry, or it fails
for lack of space and changes nothing. -/
theorem Idle.wp_createEntry (h : Idle g d v) (hs : Sound g v) (hb : v.inodeBit i = true)
    (hdir : (v.inode i).type = ufsDirectory) (ht : Buffer.FitsInt type) {Q : Int → Disk → Prop}
    (hfail : ¬ CanCreate g v i type → ∀ d', Idle g d' v → d'.image = d.image →
      Q (-eNotEnoughSpace) d')
    (hok : CanCreate g v i type → ∀ d', Idle g d' (v.created g i type name) →
      Q (v.newInum g) d') :
    wp (createEntry g.super i (v.inode i) type name) Q d := by
  have hundo : ¬ CanCreate g v i type → ∀ d', Idle g d' (g.volume d.image) →
      d'.image = d.image → Q (-eNotEnoughSpace) d' := by
    rw [h.volume]
    exact hfail
  rw [createEntry, wp_bind]
  refine h.wp_beginTransaction fun d₁ h₁ => ?_
  rw [wp_bind, Int.toNat_natCast]
  by_cases hd : type = ufsDirectory
  · rw [allocateFirst, if_pos hd]
    refine h₁.wp_allocateData (fun hnil d' hd' him => ?_) fun k ks d₂ hk h₂ => ?_
    · rw [wp_pure]
      refine hundo (fun hc => ?_) d' hd' him
      have hdata := hc.data
      rw [Volume.need, if_pos hd, hnil, List.length_nil] at hdata
      omega
    · dsimp only
      rw [wp_bind]
      refine h₂.wp_allocateInode (fun hnil d' hd' him => ?_) fun n ns d₃ hn h₃ => ?_
      · rw [wp_pure]
        exact hundo (fun hc => hc.inode hnil) d' hd' him
      · have hn : v.freeInodes g = n :: ns := hn
        obtain rfl : n = v.newInum g := by rw [Volume.newInum, hn]; rfl
        obtain rfl : k = v.newBlock g := by rw [Volume.newBlock, hk]; rfl
        have hklt := (FreeList.head_free hk).1
        dsimp only
        rw [wp_bind, writeFirst, if_pos hd, g.super_add hklt]
        refine h₃.wp_writeDataBlock hklt fun d₄ h₄ => ?_
        have hw : Active g d.image d₄ (v.withFirst g i type) := by
          rw [Volume.withFirst, if_pos hd]
          exact h₄
        exact hw.wp_enter hs hb hdir ht (List.ne_nil_of_mem (hn ▸ List.mem_cons_self))
          (fun _ => List.ne_nil_of_mem (hk ▸ List.mem_cons_self)) (fun _ => rfl)
          hundo hok
  · rw [allocateFirst, if_neg hd, wp_pure]
    dsimp only
    rw [wp_bind]
    refine h₁.wp_allocateInode (fun hnil d' hd' him => ?_) fun n ns d₃ hn h₃ => ?_
    · rw [wp_pure]
      exact hundo (fun hc => hc.inode hnil) d' hd' him
    · obtain rfl : n = v.newInum g := by rw [Volume.newInum, hn]; rfl
      dsimp only
      rw [wp_bind, writeFirst, if_neg hd, wp_pure]
      have hw : Active g d.image d₃ (v.withFirst g i type) := by
        rw [Volume.withFirst, if_neg hd]
        exact h₃
      exact hw.wp_enter hs hb hdir ht (List.ne_nil_of_mem (hn ▸ List.mem_cons_self))
        (fun h => absurd h hd) (fun h => absurd h hd) hundo hok

end CreateEntry

/-! ## The directory with the new entry -/

/-- What `append` relies on. -/
structure CanAppend (g : Geometry) (w : Volume) (i : Nat) : Prop where
  bit : w.inodeBit i = true
  good : GoodInode g w i
  slots : GoodSlots g w i
  inj : ∀ {x y}, x < w.blocks i → y < w.blocks i → w.ptr g i x = w.ptr g i y → x = y
  blocks : w.Full i → w.blocks i < 30
  newBlock : w.Full i → w.newBlock g < g.numData ∧
    ∀ x < w.blocks i, w.ptr g i x ≠ w.newBlock g

/-- A name that can be stored, and the number to store with it. -/
structure Storable (name : Bytes) (n : Nat) : Prop where
  length_lt : (Buffer.cStr name).length < 28
  fits : (n : Int) < 2 ^ 31

namespace CanAppend

theorem inode_self : (w.append g i name n).inode i =
    if w.Full i then { w.inode i with size := (1 + w.count i : Nat) * 32 }.setPtr (w.blocks i)
      (g.dataBlock (w.newBlock g))
    else { w.inode i with size := (1 + w.count i : Nat) * 32 } := by
  rw [Volume.append]
  split <;> simp [Volume.extendEntry, Volume.fillEntry]

theorem inode_of_ne {j : Nat} (hj : j ≠ i) : (w.append g i name n).inode j = w.inode j := by
  rw [Volume.append]
  split <;> simp [Volume.extendEntry, Volume.fillEntry, hj]

theorem inodeBit_append : (w.append g i name n).inodeBit = w.inodeBit := by
  rw [Volume.append]
  split <;> rfl

theorem type_self : ((w.append g i name n).inode i).type = (w.inode i).type := by
  rw [inode_self]
  split <;> rfl

theorem size_self : ((w.append g i name n).inode i).size = (1 + w.count i : Nat) * 32 := by
  rw [inode_self]
  split <;> rfl

theorem count_self : (w.append g i name n).count i = w.count i + 1 := by
  rw [Volume.count, size_self]
  omega

theorem blocks_self (h : CanAppend g w i) :
    (w.append g i name n).blocks i = w.blocks i + if w.Full i then 1 else 0 := by
  have hblocks := h.slots.blocks_eq
  have hge := h.slots.count_ge
  have hle := w.count_le_blocks i
  rw [Volume.blocks, size_self, blocksFor]
  by_cases hf : w.Full i
  · rw [if_pos hf]
    unfold Volume.Full at hf
    omega
  · rw [if_neg hf]
    unfold Volume.Full at hf
    omega

/-- Old pointers stay. -/
theorem ptr_of_lt {x : Nat} (hx : x < w.blocks i) :
    (w.append g i name n).ptr g i x = w.ptr g i x := by
  rw [Volume.ptr, Volume.ptr, inode_self]
  split
  · rw [Inode.ptr_setPtr_of_ne (by omega)]
    rfl
  · rfl

theorem ptr_new (h : CanAppend g w i) (hf : w.Full i) :
    (w.append g i name n).ptr g i (w.blocks i) = w.newBlock g := by
  rw [Volume.ptr, inode_self, if_pos hf, Inode.ptr_setPtr_self (h.blocks hf), Geometry.dataBlock]
  omega

theorem data_of_ne {k : Nat} (hk : w.Full i → k ≠ w.newBlock g)
    (hne : ∀ x < w.blocks i, k ≠ w.ptr g i x) : (w.append g i name n).data k = w.data k := by
  have hle := w.count_le_blocks i
  rw [Volume.append]
  split
  · rename_i hf
    simp [Volume.extendEntry, hk hf]
  · rename_i hf
    unfold Volume.Full at hf
    simp [Volume.fillEntry, hne (w.count i / 128) (by omega)]

/-- Slots before the new one are what they were. -/
theorem entry_of_lt (h : CanAppend g w i) {k : Nat} (hk : k < w.count i) :
    (w.append g i name n).entry g i k = w.entry g i k := by
  have hle := w.count_le_blocks i
  rw [Volume.entry, Volume.entry, ptr_of_lt (by omega), Volume.append]
  split
  · rename_i hf
    simp [Volume.extendEntry, (h.newBlock hf).2 (k / 128) (by omega)]
  · rename_i hf
    unfold Volume.Full at hf
    by_cases hblk : k / 128 = w.count i / 128
    · rw [hblk]
      simp only [Volume.fillEntry, Volume.data_setInode, Volume.data_setData, Function.update_self,
        Volume.filledBlock]
      rw [Block.entry_setEntry_of_ne (by omega) (by omega)]
    · have hne : w.ptr g i (k / 128) ≠ w.ptr g i (w.count i / 128) :=
        fun heq => hblk (h.inj (by omega) (by omega) heq)
      simp [Volume.fillEntry, hne]

theorem cname_strcpy (hn : Storable name n) (b : Buffer 28) :
    (⟨b.strcpy (Buffer.cStr name), n⟩ : DirEnt).cname = Buffer.cStr name :=
  Buffer.cStr_toList_strcpy (Buffer.zero_notMem_cStr _) hn.length_lt

theorem entry_entryBlock {k : Nat} (hn : Storable name n) (hk : k < 128) :
    (entryBlock name n).entry k =
      if k = 0 then ⟨Buffer.zero.strcpy (Buffer.cStr name), n⟩ else ⟨Buffer.zero, -1⟩ := by
  have hfits : Buffer.FitsInt n := ⟨by omega, hn.fits⟩
  have hunused : Buffer.FitsInt (-1) := ⟨by decide, by decide⟩
  rw [entryBlock, Block.entry_ofEntries _ hk]
  · cases k <;> rfl
  · cases k with
    | zero => exact hfits
    | succ k => exact hunused

/-- The new slot. -/
theorem entry_count (h : CanAppend g w i) (hn : Storable name n) :
    ((w.append g i name n).entry g i (w.count i)).cname = Buffer.cStr name ∧
      ((w.append g i name n).entry g i (w.count i)).inum = n := by
  have hle := w.count_le_blocks i
  have hn31 := hn.fits
  by_cases hf : w.Full i
  · have hcount : w.count i = 128 * w.blocks i := hf
    have hentry : (w.append g i name n).entry g i (w.count i) =
        ⟨Buffer.zero.strcpy (Buffer.cStr name), n⟩ := by
      rw [Volume.entry, show w.count i / 128 = w.blocks i by omega,
        show w.count i % 128 = 0 by omega, h.ptr_new hf, Volume.append, if_pos hf]
      simp only [Volume.extendEntry, Volume.data_setInode, Volume.data_setData,
        Function.update_self]
      rw [entry_entryBlock hn (by omega), if_pos rfl]
    rw [hentry]
    exact ⟨cname_strcpy hn _, rfl⟩
  · have hne : w.count i ≠ 128 * w.blocks i := hf
    have hentry : (w.append g i name n).entry g i (w.count i) =
        ⟨((w.data (w.ptr g i (w.count i / 128))).entry (w.count i % 128)).name.strcpy
          (Buffer.cStr name), n⟩ := by
      rw [Volume.entry, ptr_of_lt (by omega), Volume.append, if_neg hf]
      simp only [Volume.fillEntry, Volume.data_setInode, Volume.data_setData, Function.update_self,
        Volume.filledBlock]
      exact Block.entry_setEntry ⟨by dsimp only; omega, hn31⟩ (by omega)
    rw [hentry]
    exact ⟨cname_strcpy hn _, rfl⟩

/-- The slots behind the new one are unused. -/
theorem entry_stale (h : CanAppend g w i) (hn : Storable name n) {k : Nat} (hk : w.count i < k)
    (hk' : k < 128 * (w.append g i name n).blocks i) :
    ((w.append g i name n).entry g i k).inum = -1 := by
  have hle := w.count_le_blocks i
  rw [h.blocks_self] at hk'
  by_cases hf : w.Full i
  · have hcount : w.count i = 128 * w.blocks i := hf
    rw [if_pos hf] at hk'
    rw [Volume.entry, show k / 128 = w.blocks i by omega, h.ptr_new hf, Volume.append, if_pos hf]
    simp only [Volume.extendEntry, Volume.data_setInode, Volume.data_setData,
      Function.update_self]
    rw [entry_entryBlock hn (by omega), if_neg (by omega)]
  · rw [if_neg hf, Nat.add_zero] at hk'
    have hold := h.slots.stale k (by omega) hk'
    rw [Volume.entry] at hold
    rw [Volume.entry, ptr_of_lt (by omega), Volume.append, if_neg hf]
    by_cases hblk : k / 128 = w.count i / 128
    · rw [hblk] at hold ⊢
      simp only [Volume.fillEntry, Volume.data_setInode, Volume.data_setData, Function.update_self,
        Volume.filledBlock]
      rw [Block.entry_setEntry_of_ne (by omega) (by omega)]
      exact hold
    · have hne : w.ptr g i (k / 128) ≠ w.ptr g i (w.count i / 128) := by
        unfold Volume.Full at hf
        exact fun heq => hblk (h.inj (by omega) (by omega) heq)
      simpa [Volume.fillEntry, hne] using hold

/-- The directory's entries, with the new one at the end. -/
theorem entries_self (h : CanAppend g w i) (hn : Storable name n) :
    (w.append g i name n).entries g i = w.entries g i ++ [(Buffer.cStr name, n)] := by
  obtain ⟨hname, hinum⟩ := h.entry_count hn
  rw [Volume.entries, count_self, List.range_succ, List.map_append, List.map_singleton, hname,
    hinum, Int.toNat_natCast, Volume.entries]
  congr 1
  refine List.map_congr_left fun k hk => ?_
  rw [h.entry_of_lt (List.mem_range.mp hk)]

theorem slots_self (h : CanAppend g w i) (hn : Storable name n)
    (hdots : Buffer.cStr name ≠ dot ∧ Buffer.cStr name ≠ dotdot) :
    GoodSlots g (w.append g i name n) i := by
  have hge := h.slots.count_ge
  obtain ⟨hname, hinum⟩ := h.entry_count hn
  refine ⟨?_, ?_, ?_, ?_, fun k h2 hk => ?_, fun k hk hk' => ?_⟩
  · rw [size_self]
    exact Int.dvd_mul_left _ _
  · rw [size_self]
    omega
  · rw [h.entry_of_lt (by omega)]
    exact h.slots.self
  · rw [h.entry_of_lt (by omega)]
    exact h.slots.parent
  · rw [count_self] at hk
    rcases Nat.lt_or_eq_of_le (Nat.le_of_lt_succ hk) with hlt | rfl
    · rw [h.entry_of_lt hlt]
      exact h.slots.live k h2 hlt
    · refine ⟨?_, ?_, ?_, ?_⟩
      · rw [hinum]
        omega
      · rw [hname]
        exact hn.length_lt
      · rw [hname]
        exact hdots.1
      · rw [hname]
        exact hdots.2
  · rw [count_self] at hk
    exact h.entry_stale hn (by omega) hk'

theorem good_self (h : CanAppend g w i) (hn : Storable name n)
    (hdots : Buffer.cStr name ≠ dot ∧ Buffer.cStr name ≠ dotdot) :
    GoodInode g (w.append g i name n) i := by
  have hle := w.count_le_blocks i
  have hmax := h.good.blocks_le
  have hblocks := h.slots.blocks_eq
  refine ⟨?_, ?_, ?_, fun x hx => ?_, fun _ => h.slots_self hn hdots⟩
  · rw [type_self]
    exact h.good.type
  · rw [size_self]
    omega
  · rw [size_self]
    simp only [maxFileSize, directPtrs, ufsBlockSize]
    have hlt : w.count i < 3840 := by
      by_cases hf : w.Full i
      · have := h.blocks hf
        unfold Volume.Full at hf
        omega
      · unfold Volume.Full at hf
        omega
    omega
  · rw [h.blocks_self] at hx
    rw [inode_self]
    by_cases hf : w.Full i
    · rw [if_pos hf] at hx ⊢
      by_cases hxb : x = w.blocks i
      · subst hxb
        have := (h.newBlock hf).1
        rw [Inode.ptr_setPtr_self (h.blocks hf)]
        unfold Geometry.dataBlock Counts.totalBlocks
        omega
      · rw [Inode.ptr_setPtr_of_ne hxb]
        exact h.good.region x (by omega)
    · rw [if_neg hf] at hx ⊢
      exact h.good.region x (by omega)

/-- The directory owns what it owned, and the new block. -/
theorem owned_self (h : CanAppend g w i) : (w.append g i name n).owned g i =
    w.owned g i ++ if w.Full i then [w.newBlock g] else [] := by
  have hbit : (w.append g i name n).inodeBit i = true := by
    rw [inodeBit_append]
    exact h.bit
  rw [Volume.owned, if_pos hbit, Volume.owned, if_pos h.bit, h.blocks_self]
  have hold : ∀ m ≤ w.blocks i, (List.range m).map ((w.append g i name n).ptr g i) =
      (List.range m).map (w.ptr g i) := fun m hm =>
    List.map_congr_left fun x hx => ptr_of_lt (by have := List.mem_range.mp hx; omega)
  by_cases hf : w.Full i
  · rw [if_pos hf, if_pos hf, List.range_succ, List.map_append, hold _ le_rfl,
      List.map_singleton, h.ptr_new hf]
  · rw [if_neg hf, if_neg hf, Nat.add_zero, hold _ le_rfl, List.append_nil]

theorem dataBit_append (k : Nat) : (w.append g i name n).dataBit k = true ↔
    k ∈ (if w.Full i then [w.newBlock g] else []) ∨ w.dataBit k = true := by
  rw [Volume.append]
  split
  · simp [Volume.extendEntry, Function.update_apply]
  · simp [Volume.fillEntry]

end CanAppend

/-! ## The volume created is sound -/

/-- A name that `create` accepts and that directory `i` does not have. -/
structure NewName (g : Geometry) (v : Volume) (i : Nat) (name : Bytes) : Prop where
  length_lt : name.length < dirEntNameSize
  ne_dot : Buffer.cStr name ≠ dot
  ne_dotdot : Buffer.cStr name ≠ dotdot
  fresh : (v.node g).child i (Buffer.cStr name) = none

theorem not_newName {q j k : Nat} {es : List (Bytes × Nat)}
    (hnode : v.node g i = some (.dir q es)) (hj : findName (v.node g) i name = j)
    (hk : (i : Int) = k) : ¬ NewName g v k name := by
  obtain rfl : i = k := Int.ofNat_inj.mp hk
  intro hn
  have hnf : findName (v.node g) i name = -eNotFound :=
    findName_eq_notFound.mpr ⟨i, q, es, rfl, hnode, hn.ne_dot, hn.ne_dotdot, hn.fresh⟩
  cases hnf.symm.trans hj

/-- The node that is created. -/
def newNode (type : Int) (i : Nat) : Node Nat Bytes Bytes :=
  if type = ufsDirectory then .dir i [] else .file []

theorem isLeaf_newNode (type : Int) (i : Nat) : Namespace.IsLeaf i (newNode type i) := by
  rw [newNode]
  split
  · refine ⟨rfl, fun h => ?_⟩
    cases h
    rfl
  · refine ⟨rfl, fun h => ?_⟩
    cases h

namespace CanCreate

variable {type : Int}

theorem free (hc : CanCreate g v i type) (ht : type = ufsDirectory) : v.freeData g ≠ [] := by
  have hdata := hc.data
  rw [Volume.need, if_pos ht] at hdata
  exact List.ne_nil_of_length_pos (by omega)

theorem storable (hc : CanCreate g v i type) (hn : NewName g v i name) :
    Storable name (v.newInum g) := by
  have hlt := (newInum_free hc.inode).1
  have hb := g.bounds
  exact ⟨Volume.length_cStr_lt hn.length_lt, by omega⟩

theorem ne_newInum (hc : CanCreate g v i type) {j : Nat} (hj : v.inodeBit j = true) :
    j ≠ v.newInum g := by
  rintro rfl
  simp [(newInum_free hc.inode).2] at hj

theorem same_first (hc : CanCreate g v i type) (hs : Sound g v) {j : Nat}
    (hj : v.inodeBit j = true) : Same g v (v.withFirst g i type) j :=
  same_withFirst hs hc.inode hc.free hj

theorem full_iff (hc : CanCreate g v i type) (hs : Sound g v) :
    (v.withFirst g i type).Full i ↔ v.Full i := by
  have hsame := hc.same_first hs hc.bit
  rw [Volume.Full, Volume.Full, hsame.count, hsame.blocks]

/-- The block that extends the parent comes from the free list. -/
theorem newBlock_withFirst (hc : CanCreate g v i type) (hf : v.Full i) :
    (v.withFirst g i type).newBlock g < g.numData ∧
      v.dataBit ((v.withFirst g i type).newBlock g) = false ∧
      (type = ufsDirectory → (v.withFirst g i type).newBlock g ≠ v.newBlock g) := by
  have hfree := freeData_withFirst (i := i) hc.free
  have hdata := hc.data
  rw [Volume.need, if_pos hf] at hdata
  have hne : (v.withFirst g i type).freeData g ≠ [] := by
    rw [hfree, ne_eq, List.drop_eq_nil_iff]
    omega
  obtain ⟨k, ks, hcons⟩ := List.exists_cons_of_ne_nil hne
  have hmem : k ∈ v.freeData g := by
    rw [hfree] at hcons
    exact List.mem_of_mem_drop (hcons ▸ List.mem_cons_self)
  rw [Volume.newBlock, hcons]
  refine ⟨(Volume.mem_freeData.mp hmem).1, (Volume.mem_freeData.mp hmem).2, fun hd heq => ?_⟩
  -- the first block is taken already
  have hk := (FreeList.head_free hcons).2.1
  rw [Volume.withFirst, if_pos hd] at hk
  simp only [List.headD_cons] at heq
  simp [heq] at hk

theorem canAppend (hc : CanCreate g v i type) (hs : Sound g v) :
    CanAppend g (v.withFirst g i type) i := by
  have hsame := hc.same_first hs hc.bit
  refine ⟨hsame.inodeBit.trans hc.bit, hsame.good (hs.good hc.bit),
    hsame.slots ((hs.good hc.bit).slots hc.dir), fun {x y} hx hy heq => ?_, fun hf => ?_,
    fun hf => ?_⟩
  · rw [hsame.blocks] at hx hy
    rw [hsame.ptr, hsame.ptr] at heq
    exact hs.ptr_injective hc.bit hx hy heq
  · rw [hsame.blocks]
    exact hc.blocks ((hc.full_iff hs).mp hf)
  · obtain ⟨hlt, hclear, -⟩ := hc.newBlock_withFirst ((hc.full_iff hs).mp hf)
    refine ⟨hlt, fun x hx => ?_⟩
    rw [hsame.blocks] at hx
    rw [hsame.ptr]
    exact hs.ptr_ne_free hc.bit hx hclear

/-- `create` takes the first free blocks, as many as it needs. -/
theorem freeData_created (hc : CanCreate g v i type) (hs : Sound g v) :
    (v.created g i type name).freeData g = (v.freeData g).drop (v.need i type) := by
  have hfirst := freeData_withFirst (i := i) hc.free
  have hfull := hc.full_iff hs
  have happend : (v.created g i type name).freeData g =
      ((v.withFirst g i type).freeData g).drop (if v.Full i then 1 else 0) := by
    change ((v.withFirst g i type).append g i name (v.newInum g)).freeData g = _
    rw [Volume.append]
    by_cases hf : v.Full i
    · have hdata := hc.data
      rw [Volume.need, if_pos hf] at hdata
      have hne : (v.withFirst g i type).freeData g ≠ [] := by
        rw [hfirst, ne_eq, List.drop_eq_nil_iff]
        omega
      obtain ⟨k, ks, hcons⟩ := List.exists_cons_of_ne_nil hne
      rw [if_pos (hfull.mpr hf), if_pos hf, Volume.newBlock, hcons, List.headD_cons, List.drop_one,
        List.tail_cons]
      exact freeData_setDataBit hcons
    · rw [if_neg (hfull.not.mpr hf), if_neg hf, List.drop_zero]
      rfl
  rw [happend, hfirst, List.drop_drop, Volume.need]

theorem inodeBit_created : (v.created g i type name).inodeBit =
    Function.update v.inodeBit (v.newInum g) true := by
  simp only [Volume.created, Volume.inodeBit_setInode, CanAppend.inodeBit_append]
  rw [Volume.withFirst]
  split <;> rfl

theorem data_created : (v.created g i type name).data =
    ((v.withFirst g i type).append g i name (v.newInum g)).data := rfl

/-- Allocated inodes other than the parent keep their blocks. -/
theorem same (hc : CanCreate g v i type) (hs : Sound g v) {j : Nat} (hj : v.inodeBit j = true)
    (hne : j ≠ i) : Same g v (v.created g i type name) j := by
  have hfirst := hc.same_first hs hj
  have hsame := hc.same_first hs hc.bit
  have hjn := hc.ne_newInum hj
  refine ⟨?_, ?_, fun x hx => ?_⟩
  · rw [inodeBit_created, Function.update_of_ne hjn]
  · simp only [Volume.created, Volume.inode_setInode, Function.update_of_ne hjn]
    rw [CanAppend.inode_of_ne hne, hfirst.inode]
  · rw [data_created, CanAppend.data_of_ne (fun hf => ?_) fun y hy => ?_, hfirst.data x hx]
    · have := (hc.newBlock_withFirst ((hc.full_iff hs).mp hf)).2.1
      exact hs.ptr_ne_free hj hx this
    · rw [hsame.blocks] at hy
      rw [hsame.ptr]
      exact hs.ptr_ne hj hc.bit hne hx hy

/-- Setting the new inode up leaves the parent alone. -/
theorem same_parent (hc : CanCreate g v i type) : Same g
    ((v.withFirst g i type).append g i name (v.newInum g)) (v.created g i type name) i := by
  have hin := hc.ne_newInum hc.bit
  exact ⟨rfl, by simp [Volume.created, hin], fun x _ => rfl⟩

theorem inode_new (hc : CanCreate g v i type) : (v.created g i type name).inode (v.newInum g) =
    newInode g.super type (v.newBlock g) (v.inode (v.newInum g)) := by
  have hin := hc.ne_newInum hc.bit
  simp only [Volume.created, Volume.inode_setInode, Function.update_self]
  rw [CanAppend.inode_of_ne hin.symm, Volume.withFirst]
  split <;> rfl

theorem bit_new : (v.created g i type name).inodeBit (v.newInum g) = true := by
  rw [inodeBit_created, Function.update_self]

section NewDirectory

variable (hc : CanCreate g v i type) (hs : Sound g v) (hd : type = ufsDirectory)

include hc hd

theorem blocks_newDir : (v.created g i type name).blocks (v.newInum g) = 1 := by
  rw [Volume.blocks, hc.inode_new, newInode, if_pos hd]
  exact (by decide : blocksFor 64 = 1)

theorem ptr_newDir : (v.created g i type name).ptr g (v.newInum g) 0 = v.newBlock g := by
  have hlt := (newBlock_free (hc.free hd)).1
  rw [Volume.ptr, hc.inode_new, newInode, if_pos hd, Inode.ptr_setPtr_self (by omega),
    g.unsigned_dataBlock hlt, Geometry.dataBlock]
  omega

theorem count_newDir : (v.created g i type name).count (v.newInum g) = 2 := by
  rw [Volume.count, hc.inode_new, newInode, if_pos hd]
  rfl

include hs

theorem data_newDir : (v.created g i type name).data (v.newBlock g) =
    directoryBlock (v.newInum g) i := by
  have hsame := hc.same_first hs hc.bit
  rw [data_created, CanAppend.data_of_ne (fun hf => ?_) fun y hy => ?_]
  · rw [Volume.withFirst, if_pos hd]
    simp
  · exact ((hc.newBlock_withFirst ((hc.full_iff hs).mp hf)).2.2 hd).symm
  · rw [hsame.blocks] at hy
    rw [hsame.ptr]
    exact (hs.ptr_ne_free hc.bit hy (newBlock_free (hc.free hd)).2).symm

/-- The slots of the new directory. -/
theorem entry_newDir {k : Nat} (hk : k < 128) :
    (v.created g i type name).entry g (v.newInum g) k =
      if k = 0 then ⟨Buffer.zero.strcpy dot, v.newInum g⟩
      else if k = 1 then ⟨Buffer.zero.strcpy dotdot, i⟩
      else ⟨Buffer.zero, -1⟩ := by
  have hb := g.bounds
  have hn := (newInum_free hc.inode).1
  have hi := hs.inode_lt hc.bit
  have hfitsn : Buffer.FitsInt (v.newInum g) := ⟨by omega, by omega⟩
  have hfitsi : Buffer.FitsInt i := ⟨by omega, by omega⟩
  have hunused : Buffer.FitsInt (-1) := ⟨by decide, by decide⟩
  rw [Volume.entry, show k / 128 = 0 by omega, show k % 128 = k by omega, hc.ptr_newDir hd,
    hc.data_newDir hs hd, directoryBlock, Block.entry_ofEntries _ hk]
  · rcases k with _ | _ | k
    · rfl
    · rfl
    · rfl
  · rcases k with _ | _ | k
    · exact hfitsn
    · exact hfitsi
    · exact hunused

theorem good_newDir : GoodInode g (v.created g i type name) (v.newInum g) := by
  have hinode : (v.created g i type name).inode (v.newInum g) = _ := hc.inode_new
  rw [newInode, if_pos hd] at hinode
  refine ⟨?_, ?_, ?_, fun x hx => ?_, fun _ => ⟨?_, ?_, ?_, ?_, fun k h2 hk => ?_,
    fun k hk hk' => ?_⟩⟩
  · rw [hinode]
    exact .inl hd
  · rw [hinode]
    exact (by decide : (0 : Int) ≤ 64)
  · rw [hinode]
    exact (by decide : (64 : Int) ≤ ((maxFileSize : Nat) : Int))
  · rw [hc.blocks_newDir hd] at hx
    obtain rfl : x = 0 := by omega
    have hlt := (newBlock_free (hc.free hd)).1
    rw [hinode, Inode.ptr_setPtr_self (by omega), g.unsigned_dataBlock hlt]
    unfold Geometry.dataBlock Counts.totalBlocks
    omega
  · rw [hinode]
    exact (by decide : (32 : Int) ∣ 64)
  · rw [hinode]
    exact le_refl (64 : Int)
  · rw [hc.entry_newDir hs hd (by omega), if_pos rfl]
    exact ⟨Buffer.cStr_toList_strcpy (by decide) (by decide), rfl⟩
  · rw [hc.entry_newDir hs hd (by omega), if_neg (by omega), if_pos rfl]
    exact ⟨Buffer.cStr_toList_strcpy (by decide) (by decide), Int.natCast_nonneg _⟩
  · rw [hc.count_newDir hd] at hk
    omega
  · rw [hc.count_newDir hd] at hk
    rw [hc.blocks_newDir hd] at hk'
    rw [hc.entry_newDir hs hd (by omega), if_neg (by omega), if_neg (by omega)]

end NewDirectory

theorem good_newFile (hc : CanCreate g v i type) (hd : type = ufsRegularFile) :
    GoodInode g (v.created g i type name) (v.newInum g) := by
  have hne : type ≠ ufsDirectory := by
    rw [hd]
    decide
  have hinode : (v.created g i type name).inode (v.newInum g) = _ := hc.inode_new
  rw [newInode, if_neg hne] at hinode
  refine ⟨?_, ?_, ?_, fun x hx => ?_, fun ht => ?_⟩
  · rw [hinode]
    exact .inr hd
  · rw [hinode]
  · rw [hinode]
    exact (by decide : (0 : Int) ≤ ((maxFileSize : Nat) : Int))
  · rw [Volume.blocks, hinode] at hx
    have hzero : blocksFor 0 = 0 := by decide
    exact absurd hx (by rw [hzero]; omega)
  · rw [hinode] at ht
    exact absurd ht hne

variable (hc : CanCreate g v i type) (hs : Sound g v)
  (ht : type = ufsDirectory ∨ type = ufsRegularFile) (hn : NewName g v i name)

include hc hs

/-- The new directory's entries. -/
theorem entries_newDir (hd : type = ufsDirectory) :
    (v.created g i type name).entries g (v.newInum g) = [(dot, v.newInum g), (dotdot, i)] := by
  have hdot : (⟨Buffer.zero.strcpy dot, v.newInum g⟩ : DirEnt).cname = dot :=
    Buffer.cStr_toList_strcpy (by decide) (by decide)
  have hdotdot : (⟨Buffer.zero.strcpy dotdot, i⟩ : DirEnt).cname = dotdot :=
    Buffer.cStr_toList_strcpy (by decide) (by decide)
  rw [Volume.entries, hc.count_newDir hd]
  simp only [List.range_succ, List.range_zero, List.nil_append, List.cons_append, List.map_cons,
    List.map_nil]
  rw [hc.entry_newDir hs hd (by omega), hc.entry_newDir hs hd (by omega), if_pos rfl,
    if_neg (by omega), if_pos rfl, hdot, hdotdot]
  rfl

include hn in
/-- The directory has one entry more. -/
theorem entries_parent : (v.created g i type name).entries g i =
    v.entries g i ++ [(Buffer.cStr name, v.newInum g)] := by
  rw [hc.same_parent.entries, (hc.canAppend hs).entries_self (hc.storable hn),
    (hc.same_first hs hc.bit).entries]

include ht

theorem good_new : GoodInode g (v.created g i type name) (v.newInum g) := by
  rcases ht with hd | hd
  · exact hc.good_newDir hs hd
  · exact hc.good_newFile hd

theorem node_new : (v.created g i type name).node g (v.newInum g) = some (newNode type i) := by
  rcases ht with hd | hd
  · have htype : ((v.created g i type name).inode (v.newInum g)).type = ufsDirectory := by
      rw [hc.inode_new, newInode, if_pos hd]
      exact hd
    have hnil : ((v.created g i type name).entries g (v.newInum g)).drop 2 = [] := by
      rw [List.drop_eq_nil_iff, Volume.length_entries, hc.count_newDir hd]
    rw [Volume.node_of_dir bit_new htype, hnil, hc.entry_newDir hs hd (by omega),
      if_neg (by omega), if_pos rfl, Int.toNat_natCast, newNode, if_pos hd]
  · have hne : type ≠ ufsDirectory := by
      rw [hd]
      decide
    have htype : ((v.created g i type name).inode (v.newInum g)).type ≠ ufsDirectory := by
      rw [hc.inode_new, newInode, if_neg hne]
      exact hne
    have hnil : (v.created g i type name).content g (v.newInum g) = [] := by
      rw [Volume.content, hc.inode_new, newInode, if_neg hne]
      rfl
    rw [Volume.node_of_file bit_new htype, hnil, newNode, if_neg hne]

omit hs in
theorem owned_new : (v.created g i type name).owned g (v.newInum g) =
    if type = ufsDirectory then [v.newBlock g] else [] := by
  rw [Volume.owned, if_pos bit_new]
  rcases ht with hd | hd
  · rw [if_pos hd, hc.blocks_newDir hd]
    simp [hc.ptr_newDir hd]
  · have hne : type ≠ ufsDirectory := by
      rw [hd]
      decide
    have hblocks : (v.created g i type name).blocks (v.newInum g) = 0 := by
      rw [Volume.blocks, hc.inode_new, newInode, if_neg hne]
      exact (by decide : blocksFor 0 = 0)
    rw [if_neg hne, hblocks]
    rfl

omit ht in
/-- The bitmap with the new directory's block taken. -/
theorem owned_first : Owned (v.withFirst g i type).dataBit
    (Function.update (v.owned g) (v.newInum g)
      (if type = ufsDirectory then [v.newBlock g] else [])) := by
  have htake : Owned (v.withFirst g i type).dataBit (Function.update (v.owned g) (v.newInum g)
      (v.owned g (v.newInum g) ++ if type = ufsDirectory then [v.newBlock g] else [])) := by
    refine hs.owned.take (by split <;> simp) (fun k hk => ?_) fun k => ?_
    · split at hk
      · rename_i hd
        rw [List.mem_singleton.mp hk]
        exact (newBlock_free (hc.free hd)).2
      · cases hk
    · rw [Volume.withFirst]
      split
      · simp [Function.update_apply]
      · simp
  rwa [Volume.owned_of_clear (newInum_free hc.inode).2, List.nil_append] at htake

/-- Who owns what: the new inode has its block, and the parent may have one more. -/
theorem owned_eq : (v.created g i type name).owned g = Function.update
    (Function.update (v.owned g) (v.newInum g)
      (if type = ufsDirectory then [v.newBlock g] else [])) i
    (v.owned g i ++ if (v.withFirst g i type).Full i then
      [(v.withFirst g i type).newBlock g] else []) := by
  funext j
  by_cases hji : j = i
  · rw [hji, Function.update_self, hc.same_parent.owned, (hc.canAppend hs).owned_self,
      (hc.same_first hs hc.bit).owned]
  rw [Function.update_of_ne hji]
  by_cases hjn : j = v.newInum g
  · rw [hjn, Function.update_self, hc.owned_new ht]
  rw [Function.update_of_ne hjn]
  cases hb : v.inodeBit j with
  | true => exact (hc.same hs hb hji).owned
  | false =>
      have hb' : (v.created g i type name).inodeBit j = false := by
        rw [inodeBit_created, Function.update_of_ne hjn, hb]
      rw [Volume.owned_of_clear hb, Volume.owned_of_clear hb']

omit ht in
/-- The block that extends the parent is free after the first one is taken. -/
theorem clear_newBlock : ∀ k ∈ (if (v.withFirst g i type).Full i then
    [(v.withFirst g i type).newBlock g] else []), (v.withFirst g i type).dataBit k = false := by
  intro k hk
  split at hk
  · rename_i hf
    obtain ⟨-, hfree, hne⟩ := hc.newBlock_withFirst ((hc.full_iff hs).mp hf)
    have hk := List.mem_singleton.mp hk
    rw [← hk] at hfree hne
    rw [Volume.withFirst]
    split
    · rename_i hd
      simp [hfree, hne hd]
    · exact hfree
  · cases hk

theorem owned : Owned (v.created g i type name).dataBit ((v.created g i type name).owned g) := by
  have hself : Function.update (v.owned g) (v.newInum g)
      (if type = ufsDirectory then [v.newBlock g] else []) i = v.owned g i :=
    Function.update_of_ne (hc.ne_newInum hc.bit) _ _
  rw [hc.owned_eq hs ht, ← hself]
  exact (hc.owned_first hs).take (by split <;> simp) (hc.clear_newBlock hs)
    fun k => CanAppend.dataBit_append k

include hn

/-- In terms of nodes, a leaf was linked. -/
theorem node_eq : (v.created g i type name).node g =
    (v.node g).link i (Buffer.cStr name) (v.newInum g) (newNode type i) := by
  have hclear := (newInum_free hc.inode).2
  have happ := hc.canAppend hs
  have hsame := hc.same_first hs hc.bit
  have hst := hc.storable hn
  funext j
  by_cases hj : j = v.newInum g
  · subst hj
    rw [hc.node_new hs ht, Namespace.link_self]
  by_cases hji : j = i
  · subst hji
    have hgood := happ.good_self hst ⟨hn.ne_dot, hn.ne_dotdot⟩
    have hge := happ.slots.count_ge
    rw [hc.same_parent.node fun _ => hgood, Namespace.link_parent (Volume.node_of_dir hc.bit hc.dir)
      (Volume.node_of_clear hclear)]
    have hbit : ((v.withFirst g j type).append g j name (v.newInum g)).inodeBit j = true := by
      rw [CanAppend.inodeBit_append]
      exact happ.bit
    rw [Volume.node_of_dir hbit (by rw [CanAppend.type_self, hsame.inode, hc.dir]),
      happ.entry_of_lt (by omega), happ.entries_self hst,
      hsame.entry (by have := v.count_le_blocks j; rw [hsame.count] at hge; omega), hsame.entries,
      List.drop_append_of_le_length (by rw [Volume.length_entries, ← hsame.count]; omega)]
  · rw [Namespace.link_of_ne hji hj]
    cases hb : v.inodeBit j with
    | true => exact (hc.same hs hb hji).node hs.good
    | false =>
        have hb' : (v.created g i type name).inodeBit j = false := by
          rw [inodeBit_created, Function.update_of_ne hj, hb]
        rw [Volume.node_of_clear hb, Volume.node_of_clear hb']

theorem sound : Sound g (v.created g i type name) where
  inode_lt := by
    intro j hj
    rw [inodeBit_created, Function.update_apply] at hj
    split at hj
    · rename_i heq
      rw [heq]
      exact (newInum_free hc.inode).1
    · exact hs.inode_lt hj
  good := by
    intro j hj
    by_cases hjn : j = v.newInum g
    · rw [hjn]
      exact hc.good_new hs ht
    · rw [inodeBit_created, Function.update_of_ne hjn] at hj
      by_cases hji : j = i
      · subst hji
        exact hc.same_parent.good ((hc.canAppend hs).good_self (hc.storable hn)
          ⟨hn.ne_dot, hn.ne_dotdot⟩)
      · exact (hc.same hs hj hji).good (hs.good hj)
  owned := hc.owned hs ht
  tree := by
    have hdir : v.node g i = _ := Volume.node_of_dir hc.bit hc.dir
    rw [hc.node_eq hs ht hn]
    exact hs.tree.link hdir (Volume.node_of_clear (newInum_free hc.inode).2)
      ((Namespace.child_eq_none hdir).mp hn.fresh) (isLeaf_newNode type i)

end CanCreate

/-! ## All calls of `create` -/

/-- `create` makes the new entry `name` of directory `i`. -/
structure Creates (g : Geometry) (v : Volume) (i : Nat) (type : Int) (name : Bytes) : Prop
    extends CanCreate g v i type, NewName g v i name where
  name_ne : name ≠ []

/-- A node that `lookup` finds is in use. -/
theorem Sound.bit_of_findName (hs : Sound g v) {p : Int} {j : Nat}
    (h : findName (v.node g) p name = j) : v.inodeBit j = true := by
  by_cases hdir : ∃ (i q : Nat) (es : List (Bytes × Nat)), p = i ∧ v.node g i = some (.dir q es)
  · obtain ⟨i, q, es, rfl, hi⟩ := hdir
    rw [findName_dir name hi] at h
    split at h
    · obtain rfl : i = j := by omega
      exact Volume.bit_of_node hi
    · split at h
      · obtain rfl : q = j := by omega
        by_cases hroot : i = 0
        · subst hroot
          obtain ⟨es', hr⟩ := hs.tree.root
          rw [hr] at hi
          cases hi
          exact hs.root.1
        · obtain ⟨k, x, hk⟩ := hs.tree.exists_entry hi hroot
          rw [hs.tree.parent hk hi]
          obtain ⟨q', es', hk', -⟩ := hk
          exact Volume.bit_of_node hk'
      · split at h
        · rename_i hc
          obtain ⟨n, hn⟩ := hs.tree.target (Namespace.entry_of_child hc)
          rename_i m
          obtain rfl : m = j := by omega
          exact Volume.bit_of_node hn
        · simp only [eNotFound] at h
          omega
  · rw [findName_invalid name fun i hi q es he => hdir ⟨i, q, es, hi, he⟩] at h
    simp only [eInvalidInode] at h
    omega

/-- The names that `create` refuses whatever the directory. -/
def BadName (name : Bytes) : Prop :=
  (name = [] ∨ dirEntNameSize ≤ name.length) ∨ (name = dot ∨ name = dotdot)

instance (name : Bytes) : Decidable (BadName name) := inferInstanceAs (Decidable (_ ∨ _))

theorem not_badName (hlen : 1 ≤ name.length ∧ name.length ≤ 27)
    (hdots : ¬ (name = dot ∨ name = dotdot)) : ¬ BadName name := by
  rintro ((rfl | hlong) | hdot)
  · simp at hlen
  · simp only [dirEntNameSize] at hlong
    omega
  · exact hdots hdot

theorem NewName.not_badName (h : NewName g v i name) (hne : name ≠ []) : ¬ BadName name := by
  rintro ((hnil | hlen) | hdots)
  · exact hne hnil
  · exact absurd h.length_lt (by omega)
  · rcases hdots with rfl | rfl
    · exact h.ne_dot (by decide)
    · exact h.ne_dotdot (by decide)

/-- What a call of `create` returns, and what it does, case by case. -/
theorem wp_create_cases (h : Idle g d v) (hs : Sound g v) {p type : Int}
    (ht : Buffer.FitsInt type) {Q : Int → Disk → Prop}
    (hbad : BadName name → Q (-eInvalidName) d)
    (hdir : (∀ i : Nat, p = i → ∀ q es, v.node g i ≠ some (.dir q es)) → Q (-eInvalidInode) d)
    (hfound : ∀ j : Nat, findName (v.node g) p name = j →
      Q (if (v.inode j).type = type then j else -eInvalidType) d)
    (hfull : ∀ i : Nat, p = i → ¬ BadName name → NewName g v i name → ¬ CanCreate g v i type →
      ∀ d', Idle g d' v → d'.image = d.image → Q (-eNotEnoughSpace) d')
    (hok : ∀ i : Nat, p = i → Creates g v i type name → ∀ d',
      Idle g d' (v.created g i type name) → Q (v.newInum g) d') :
    wp (create p type name) Q d := by
  rw [create]
  by_cases hlen : name = [] ∨ dirEntNameSize ≤ name.length
  · rw [if_pos hlen, wp_pure]
    exact hbad (.inl hlen)
  rw [if_neg hlen]
  by_cases hdots : name = dot ∨ name = dotdot
  · rw [if_pos hdots, wp_pure]
    exact hbad (.inr hdots)
  rw [if_neg hdots, wp_bind, wp_stat h.toHolds]
  rcases hs.stat_cases p with ⟨i, rfl, hb, hstat⟩ | ⟨hnone, hstat⟩
  · rw [hstat]
    dsimp only
    by_cases ht' : (v.inode i).type = ufsDirectory
    · have hnode := Volume.node_of_dir (g := g) hb ht'
      rw [if_neg (by simpa using ht'), wp_bind]
      refine wp_lookup h.toHolds hs _ _ ?_
      rcases findName_dir_cases name hnode with hnf | ⟨j, hj⟩
      · rw [hnf, if_neg (by decide), if_neg (by decide), wp_bind, wp_readSuperBlock h.toHolds]
        obtain ⟨m, q, es, hm, -, h1, h2, h3⟩ := findName_eq_notFound.mp hnf
        obtain rfl : i = m := by omega
        have hn : NewName g v i name := ⟨by omega, h1, h2, h3⟩
        have hgood : ¬ BadName name := fun hb => hb.elim hlen hdots
        refine h.wp_createEntry hs hb ht' ht (hfull i rfl hgood hn) fun hc d' hd' => ?_
        exact hok i rfl ⟨hc, hn, fun hnil => hlen (.inl hnil)⟩ d' hd'
      · rw [hj, if_pos (by omega), wp_bind, wp_stat h.toHolds,
          hs.stat_of_bit (hs.bit_of_findName hj)]
        have hq := hfound j hj
        dsimp only
        by_cases hty : (v.inode j).type = type
        · rw [if_pos hty] at hq
          rw [if_neg (by simpa using hty), wp_pure]
          exact hq
        · rw [if_neg hty] at hq
          rw [if_pos hty, wp_pure]
          exact hq
    · rw [if_pos ht', wp_pure]
      refine hdir fun j hj q es hnode => ?_
      obtain rfl : i = j := by omega
      exact ht' (Volume.dir_of_node hnode)
  · rw [hstat, wp_pure]
    exact hdir fun i hi q es hnode => by simp [hnone i hi] at hnode

/-- Every call of `create` returns: it fails and changes nothing, or it finds the entry it
was asked for, or it has made it. -/
theorem wp_create (h : Idle g d v) (hs : Sound g v) {p type : Int}
    (ht : Buffer.FitsInt type) {Q : Int → Disk → Prop}
    (hfail : ∀ r < 0, (∀ i : Nat, p = i → ¬ Creates g v i type name) → ∀ d', Idle g d' v →
      d'.image = d.image → Q r d')
    (hfound : ∀ j : Nat, findName (v.node g) p name = j → (v.inode j).type = type → Q j d)
    (hok : ∀ i : Nat, p = i → Creates g v i type name → ∀ d',
      Idle g d' (v.created g i type name) → Q (v.newInum g) d') :
    wp (create p type name) Q d := by
  refine wp_create_cases h hs ht (fun hbad => ?_) (fun hdir => ?_) (fun j hj => ?_)
    (fun i hi _ hn hno d' hd' him => ?_) hok
  · exact hfail _ (by decide) (fun i _ hc => hc.not_badName hc.name_ne hbad) d h rfl
  · exact hfail _ (by decide)
      (fun i hi hc => hdir i hi _ _ (Volume.node_of_dir (g := g) hc.bit hc.dir)) d h rfl
  · split
    · rename_i hty
      exact hfound j hj hty
    · refine hfail _ (by decide) (fun i hi hc => ?_) d h rfl
      have hnf : findName (v.node g) p name = -eNotFound := findName_eq_notFound.mpr
        ⟨i, _, _, hi, Volume.node_of_dir (g := g) hc.bit hc.dir, hc.ne_dot, hc.ne_dotdot, hc.fresh⟩
      rw [hnf] at hj
      cases hj
  · refine hfail _ (by decide) (fun k hk hc => ?_) d' hd' him
    obtain rfl : i = k := by omega
    exact hno hc.toCanCreate

end Gunrock
