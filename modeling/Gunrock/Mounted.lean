import Gunrock.LocalFileSystem
import Gunrock.Volume

/-!
# Mounted volumes

The operations of the disk and the shared fragments of the file system, as seen from the
volume that the disk holds.  `Holds g d v` says which volume that is, `Idle` and `Active`
add whether a transaction is open.  From here on a piece of the file system is specified
by the volume it leaves behind, and no block number is out of range any more.

All rules are for total correctness: they are also what shows that nothing crashes.
-/

namespace Gunrock

open Disk LocalFileSystem Wp

/-- The disk `d` is laid out by `g` and holds the volume `v`, and no block outside the
regions was ever written. -/
structure Holds (g : Geometry) (d : Disk) (v : Volume) : Prop where
  blocks : d.numberOfBlocks = g.totalBlocks
  super : Super.decode (d.image 0) = g.super
  volume : g.volume d.image = v
  written : ∀ b ∈ d.written, g.super.InRegion b

/-- Between calls. -/
structure Idle (g : Geometry) (d : Disk) (v : Volume) : Prop extends Holds g d v where
  closed : d.Closed

/-- In a transaction that started from the image `im`. -/
structure Active (g : Geometry) (im : Nat → Block) (d : Disk) (v : Volume) : Prop
    extends Holds g d v where
  inTx : InTx im d
  super_im : Super.decode (im 0) = g.super

/-! ## Bitmaps -/

/-- The two bitmaps. -/
inductive Bitmap where
  | inodes | data

namespace Bitmap

variable (g : Geometry) (v : Volume)

def addr : Bitmap → Nat
  | inodes => 1
  | data => g.dataBitmapAddr

def len : Bitmap → Nat
  | inodes => g.inodeBitmapLen
  | data => g.dataBitmapLen

/-- How many bits are in use. -/
def num : Bitmap → Nat
  | inodes => g.numInodes
  | data => g.numData

def bits : Bitmap → Nat → Bool
  | inodes => v.inodeBit
  | data => v.dataBit

def setBit : Bitmap → Nat → Bool → Volume
  | inodes => v.setInodeBit
  | data => v.setDataBit

/-- What the bitmap has to offer. -/
def free (m : Bitmap) : List Nat := FreeList.free (m.bits v) (m.num g)

variable {g v} {im : Nat → Block} (m : Bitmap)

theorem num_le : m.num g ≤ 32768 * m.len g := by
  cases m with
  | inodes => exact g.numInodes_le_bitmap
  | data => exact g.numData_le_bitmap

theorem addr_add_len_le : 1 ≤ m.addr g ∧ m.addr g + m.len g ≤ g.dataRegionAddr := by
  have hle := Geometry.inodeRegionAddr_le (g := g)
  have hle' := Geometry.dataBitmapAddr_le (g := g)
  cases m with
  | inodes =>
      simp only [addr, len, Counts.dataBitmapAddr] at *
      omega
  | data =>
      simp only [addr, len, Counts.inodeRegionAddr, Counts.dataBitmapAddr] at *
      omega

theorem len_lt : 32768 * m.len g < 2 ^ 31 := by
  have hb := g.bounds
  unfold Counts.totalBlocks at hb
  cases m with
  | inodes =>
      simp only [len, Counts.inodeBitmapLen]
      omega
  | data =>
      simp only [len, Counts.dataBitmapLen]
      omega

theorem bits_volume {i : Nat} (h : i < 32768 * m.len g) :
    m.bits (g.volume im) i = (im (m.addr g + i / 32768)).bit (i % 32768) := by
  cases m with
  | inodes =>
      rw [bits, addr]
      exact Geometry.inodeBit_volume h
  | data =>
      rw [bits, addr]
      exact Geometry.dataBit_volume h

theorem volume_update (im : Nat → Block) (i : Nat) (b : Bool) (blk : Block)
    (hi : i < 32768 * m.len g)
    (hblk : ∀ j < 32768, blk.bit j =
      if j = i % 32768 then b else (im (m.addr g + i / 32768)).bit j) :
    g.volume (Function.update im (m.addr g + i / 32768) blk) =
      m.setBit (g.volume im) i b := by
  cases m with
  | inodes => exact Geometry.volume_update_inodeBitmap hi hblk
  | data => exact Geometry.volume_update_dataBitmap hi hblk

end Bitmap

variable {g : Geometry} {im : Nat → Block} {d : Disk} {v : Volume} {α : Type}

/-! ## Blocks in range -/

theorem Holds.inRange (h : Holds g d v) {b : Nat} (hb : b < g.totalBlocks) : d.InRange b := by
  refine ⟨by omega, ?_⟩
  rw [h.blocks]
  omega

/-- Storing a block that lies in a region. -/
theorem Active.store (h : Active g im d v) {b : Nat} (h1 : 1 ≤ b) (h2 : b < g.totalBlocks)
    {blk : Block} {v' : Volume} (hv : g.volume (Function.update d.image b blk) = v') :
    Active g im (d.store b blk) v' where
  blocks := h.blocks
  super := by
    have h0 : (d.store b blk).image 0 = d.image 0 := Function.update_of_ne (by omega) _ _
    rw [h0, h.super]
  volume := hv
  written := by
    intro c hc
    rcases List.mem_cons.mp hc with rfl | hc
    · rw [g.inRegion_iff]
      omega
    · exact h.written c hc
  inTx := h.inTx.store (h.toHolds.inRange h2) blk
  super_im := h.super_im

/-! ## Transactions -/

theorem Idle.wp_beginTransaction (h : Idle g d v) {Q : PUnit → Disk → Prop}
    (hQ : ∀ d', Active g d.image d' v → Q ⟨⟩ d') : wp beginTransaction Q d := by
  rw [Disk.wp_beginTransaction h.closed.isClosed]
  exact hQ _ ⟨⟨h.blocks, h.super, h.volume, h.written⟩, h.closed.inTx, h.super⟩

/-- A commit: nothing changes, and the log is gone. -/
theorem Active.wp_commit (h : Active g im d v) {Q : PUnit → Disk → Prop}
    (hQ : ∀ d', Idle g d' v → d'.image = d.image → Q ⟨⟩ d') : wp commit Q d := by
  rw [Disk.wp_commit]
  exact hQ _ ⟨⟨h.blocks, h.super, h.volume, h.written⟩, ⟨rfl, rfl⟩⟩ rfl

/-- A rollback: the image is the one at the start. -/
theorem Active.wp_rollback (h : Active g im d v) {Q : PUnit → Disk → Prop}
    (hQ : ∀ d', Idle g d' (g.volume im) → d'.image = im → Q ⟨⟩ d') : wp rollback Q d := by
  refine h.inTx.wp_rollback_of fun d' hc him hsize hw => hQ d' ⟨⟨?_, ?_, ?_, ?_⟩, hc⟩ him
  · simp only [numberOfBlocks, hsize]
    exact h.blocks
  · rw [him]
    exact h.super_im
  · rw [him]
  · exact fun b hb => h.written b (hw b hb)

/-- A call that gives up undoes its transaction and says so. -/
theorem Active.wp_rollback_pure {α : Type} {r : α} (h : Active g im d v) {Q : α → Disk → Prop}
    (hQ : ∀ d', Idle g d' (g.volume im) → d'.image = im → Q r d') :
    wp (do rollback; return r) Q d := by
  rw [wp_bind]
  refine h.wp_rollback fun d' hd' him => ?_
  rw [wp_pure]
  exact hQ d' hd' him

/-! ## Reading -/

theorem wp_readSuperBlock {Q : Super → Disk → Prop} (h : Holds g d v) :
    wp readSuperBlock Q d ↔ Q g.super d := by
  have hpos : 0 < g.totalBlocks := by
    have := g.numData_ge
    unfold Counts.totalBlocks
    omega
  have h0 : d.InRange 0 := h.inRange hpos
  rw [readSuperBlock, wp_bind, wp_readBlock h0, wp_pure, Int.toNat_zero, h.super]

/-- `stat`, on a volume. -/
def Volume.stat (g : Geometry) (v : Volume) (inodeNumber : Int) : Except Int Inode :=
  if (g.numInodes : Int) ≤ inodeNumber ∨ inodeNumber < 0 then .error (-eInvalidInode)
  else if v.inodeBit inodeNumber.toNat then .ok (v.inode inodeNumber.toNat)
  else .error (-eInvalidInode)

theorem wp_stat {Q : Except Int Inode → Disk → Prop} (h : Holds g d v) (n : Int) :
    wp (stat n) Q d ↔ Q (v.stat g n) d := by
  rw [stat, wp_bind, wp_readSuperBlock h]
  by_cases hvalid : (g.numInodes : Int) ≤ n ∨ n < 0
  · have hc : checkInodeIsValid g.super n = true := by
      simp only [checkInodeIsValid, Bool.or_eq_true, decide_eq_true_eq]
      exact hvalid
    rw [if_pos hc, wp_pure, Volume.stat, if_pos hvalid]
  · have hc : ¬ checkInodeIsValid g.super n = true := by
      simp only [checkInodeIsValid, Bool.or_eq_true, decide_eq_true_eq]
      exact hvalid
    have hbitmap := g.numInodes_le_bitmap
    have hregion := g.numInodes_le_region
    obtain ⟨k, rfl⟩ : ∃ k : Nat, n = k := ⟨n.toNat, by omega⟩
    have hk : k < g.numInodes := by omega
    have haddr := (Bitmap.inodes).addr_add_len_le (g := g)
    simp only [Bitmap.addr, Bitmap.len] at haddr
    have hdata : g.dataRegionAddr ≤ g.totalBlocks := by unfold Counts.totalBlocks; omega
    have htable : g.inodeRegionAddr + k / 32 < g.dataRegionAddr := by
      unfold Counts.dataRegionAddr
      omega
    have hb : d.InRange (((1 + k / 32768 : Nat) : Int)) := h.inRange (by omega)
    have ht : d.InRange (((g.inodeRegionAddr + k / 32 : Nat) : Int)) := h.inRange (by omega)
    have hbit : (g.volume d.image).inodeBit k = _ := Geometry.inodeBit_volume (by omega)
    have hinode : (g.volume d.image).inode k = _ := Geometry.inode_volume (by omega)
    rw [h.volume] at hbit hinode
    have haddr₁ : g.super.inodeBitmapAddr + ((k / (ufsBlockSize * 8) : Nat) : Int) =
        ((1 + k / 32768 : Nat) : Int) := by simp [Counts.super]
    have haddr₂ : g.super.inodeRegionAddr + ((k / 32 : Nat) : Int) =
        ((g.inodeRegionAddr + k / 32 : Nat) : Int) := by simp [Counts.super]
    rw [if_neg hc]
    dsimp only
    rw [Int.toNat_natCast, haddr₁, haddr₂, wp_bind, wp_readBlock hb, Int.toNat_natCast,
      Volume.stat, if_neg hvalid, Int.toNat_natCast, hbit]
    cases hset : (d.image (1 + k / 32768)).bit (k % 32768) with
    | false => simp
    | true =>
        rw [if_neg (by simp), wp_bind, wp_readBlock ht, wp_pure, if_pos rfl,
          Int.toNat_natCast, hinode]

/-! ## Data blocks -/

/-- The number of data block `k`. -/
def Geometry.dataBlock (g : Geometry) (k : Nat) : Nat := g.dataRegionAddr + k

theorem Geometry.signed_dataBlock {k : Nat} (hk : k < g.numData) :
    Buffer.signed (g.dataBlock k) = (g.dataRegionAddr + k : Nat) := by
  have hb := g.bounds
  unfold Counts.totalBlocks at hb
  exact Buffer.signed_of_lt (by unfold dataBlock; omega)

theorem Geometry.unsigned_dataBlock {k : Nat} (hk : k < g.numData) :
    Buffer.unsigned (g.super.dataRegionAddr + k) = g.dataBlock k := by
  have hb := g.bounds
  unfold Counts.totalBlocks at hb
  have hcast : g.super.dataRegionAddr + (k : Int) = (g.dataBlock k : Nat) := by
    simp [Counts.super, dataBlock]
  rw [hcast]
  exact Buffer.unsigned_ofNat (by unfold dataBlock; omega)

theorem Geometry.super_add {k : Nat} (hk : k < g.numData) :
    g.super.dataRegionAddr + (k : Int) = Buffer.signed (g.dataBlock k) := by
  rw [g.signed_dataBlock hk]
  simp [Counts.super]

theorem Geometry.dataBlock_lt {k : Nat} (hk : k < g.numData) :
    g.dataRegionAddr + k < g.totalBlocks := by
  unfold Counts.totalBlocks
  omega

theorem wp_readDataBlock {Q : Block → Disk → Prop} (h : Holds g d v) {k : Nat}
    (hk : k < g.numData) :
    wp (readBlock (Buffer.signed (g.dataBlock k))) Q d ↔ Q (v.data k) d := by
  rw [g.signed_dataBlock hk, wp_readBlock (h.inRange (g.dataBlock_lt hk)), Int.toNat_natCast,
    ← h.volume, Geometry.data_volume hk]

theorem Active.wp_writeDataBlock (h : Active g im d v) {k : Nat} (hk : k < g.numData) {blk : Block}
    {Q : PUnit → Disk → Prop} (hQ : ∀ d', Active g im d' (v.setData k blk) → Q ⟨⟩ d') :
    wp (writeBlock (Buffer.signed (g.dataBlock k)) blk) Q d := by
  have hlt := g.dataBlock_lt hk
  have hpos : 1 ≤ g.dataRegionAddr + k := by
    have := (Bitmap.inodes).addr_add_len_le (g := g)
    omega
  rw [g.signed_dataBlock hk, wp_writeBlock (h.toHolds.inRange hlt)]
  refine hQ _ (h.store hpos hlt ?_)
  rw [Geometry.volume_update_data hk, h.volume]

/-! ## Inodes -/

theorem Holds.fits (h : Holds g d v) (i : Nat) : (v.inode i).Fits := by
  rw [← h.volume]
  exact Geometry.fits_inode_volume i

/-- `b` is block `k` of the inode table. -/
def Volume.TableBlock (v : Volume) (k : Nat) (b : Block) : Prop :=
  ∀ j < 32, b.inode j = v.inode (32 * k + j)

theorem Volume.TableBlock.eq {k : Nat} {b b' : Block} (h : v.TableBlock k b)
    (h' : v.TableBlock k b') : b = b' :=
  Block.ext_inode fun j hj => (h j hj).trans (h' j hj).symm

theorem Holds.tableBlock (h : Holds g d v) {k : Nat} (hk : k < g.inodeRegionLen) :
    v.TableBlock k (d.image (g.inodeRegionAddr + k)) := by
  intro j hj
  rw [← h.volume, Geometry.inode_volume (by omega), show (32 * k + j) / 32 = k by omega,
    show (32 * k + j) % 32 = j by omega]

theorem Active.wp_updateInode (h : Active g im d v) {n : Nat} (hn : n < g.numInodes)
    {f : Inode → Inode} (hf : (f (v.inode n)).Fits) {Q : Block → Disk → Prop}
    (hQ : ∀ b d', (v.setInode n (f (v.inode n))).TableBlock (n / 32) b →
      Active g im d' (v.setInode n (f (v.inode n))) → Q b d') :
    wp (updateInode g.super n f) Q d := by
  have hregion := g.numInodes_le_region
  have hn' : n < 32 * g.inodeRegionLen := by omega
  have haddr : g.super.inodeRegionAddr + ((n / 32 : Nat) : Int) =
      ((g.inodeRegionAddr + n / 32 : Nat) : Int) := by simp [Counts.super]
  have hpos := (Bitmap.data).addr_add_len_le (g := g)
  simp only [Bitmap.addr, Bitmap.len] at hpos
  have hlt : g.inodeRegionAddr + n / 32 < g.totalBlocks := by
    unfold Counts.totalBlocks Counts.dataRegionAddr
    omega
  have hle := Geometry.dataBitmapAddr_le (g := g)
  have hinode : (g.volume d.image).inode n = _ := Geometry.inode_volume hn'
  rw [h.volume] at hinode
  simp only [updateInode, haddr, wp_bind]
  rw [wp_readBlock (h.toHolds.inRange hlt), wp_writeBlock (h.toHolds.inRange hlt), wp_pure,
    Int.toNat_natCast, ← hinode]
  have hvol : g.volume (Function.update d.image (g.inodeRegionAddr + n / 32)
      ((d.image (g.inodeRegionAddr + n / 32)).setInode (n % 32) (f (v.inode n)))) =
      v.setInode n (f (v.inode n)) := by
    rw [Geometry.volume_update_inodeRegion hn' hf, h.volume]
  have hstore := h.store (by omega) hlt hvol
  have htable := hstore.toHolds.tableBlock (k := n / 32) (by omega)
  rw [image_store_self] at htable
  exact hQ _ _ htable hstore

/-! ## Bits -/

theorem Active.wp_clearBit (h : Active g im d v) (m : Bitmap) {i : Nat} (hi : i < m.num g)
    {Q : PUnit → Disk → Prop} (hQ : ∀ d', Active g im d' (m.setBit v i false) → Q ⟨⟩ d') :
    wp (clearBit (m.addr g) i) Q d := by
  have hnum := m.num_le (g := g)
  have hspan := m.addr_add_len_le (g := g)
  have haddr : (m.addr g : Int) + ((i / (ufsBlockSize * 8) : Nat) : Int) =
      ((m.addr g + i / 32768 : Nat) : Int) := by simp
  have hlt : m.addr g + i / 32768 < g.totalBlocks := by
    unfold Counts.totalBlocks
    omega
  simp only [clearBit, haddr, wp_bind]
  rw [wp_readBlock (h.toHolds.inRange hlt), wp_writeBlock (h.toHolds.inRange hlt),
    Int.toNat_natCast]
  refine hQ _ (h.store (by omega) hlt ?_)
  rw [m.volume_update d.image i false _ (by omega), h.volume]
  intro j hj
  rw [Buffer.bit_clearBit (by omega)]
  by_cases hji : j = i % 32768 <;> simp [hji]

theorem Active.wp_freeBlock (h : Active g im d v) {k : Nat} (hk : k < g.numData)
    {Q : PUnit → Disk → Prop} (hQ : ∀ d', Active g im d' (v.setDataBit k false) → Q ⟨⟩ d') :
    wp (freeBlock g.super (g.dataBlock k)) Q d := by
  have hb := g.bounds
  unfold Counts.totalBlocks at hb
  have hsub : Buffer.unsigned ((g.dataBlock k : Nat) - g.super.dataRegionAddr) = k := by
    have hcast : ((g.dataBlock k : Nat) : Int) - g.super.dataRegionAddr = (k : Nat) := by
      simp only [Counts.super, Geometry.dataBlock]
      omega
    rw [hcast]
    exact Buffer.unsigned_ofNat (by omega)
  rw [freeBlock, hsub]
  exact h.wp_clearBit .data hk hQ

/-! ## Allocation -/

/-- Block `i` of a bitmap holds the bits from `32768 * i` on. -/
theorem Holds.bits_block (h : Holds g d v) (m : Bitmap) {i b : Nat} (hi : i < m.len g)
    (hb : b < 32768) : m.bits v (32768 * i + b) = (d.image (m.addr g + i)).bit b := by
  rw [← h.volume, m.bits_volume (by omega), show (32768 * i + b) / 32768 = i by omega,
    show (32768 * i + b) % 32768 = b by omega]

/-- Block `i` of a bitmap, with a bit set. -/
theorem Active.setBit_block (h : Active g im d v) (m : Bitmap) {i b : Nat} (hi : i < m.len g)
    (hb : b < 32768) :
    Active g im (d.store (m.addr g + i) ((d.image (m.addr g + i)).setBit b))
      (m.setBit v (32768 * i + b) true) := by
  have hspan := m.addr_add_len_le (g := g)
  have hlt : m.addr g + i < g.totalBlocks := by
    unfold Counts.totalBlocks
    omega
  have hupd := m.volume_update (g := g) d.image (32768 * i + b) true
    ((d.image (m.addr g + i)).setBit b) (by omega)
  rw [show (32768 * i + b) / 32768 = i by omega, show (32768 * i + b) % 32768 = b by omega,
    h.volume] at hupd
  refine h.store (by omega) hlt (hupd fun j hj => ?_)
  rw [Buffer.bit_setBit (by omega)]
  by_cases hjb : j = b <;> simp [hjb]

/-- The scan finds the lowest clear bit of the bitmap and sets it, given that it has come
past set bits only. -/
theorem Active.wp_scanBitmap (h : Active g im d v) (m : Bitmap) {n i : Nat}
    (hlen : i + n = m.len g) (hset : ∀ j < 32768 * i, m.bits v j = true)
    {Q : Option Nat → Disk → Prop}
    (hnone : (∀ j < 32768 * m.len g, m.bits v j = true) → Q none d)
    (hsome : ∀ j d', j < 32768 * m.len g → m.bits v j = false →
      (∀ j' < j, m.bits v j' = true) → Active g im d' (m.setBit v j true) → Q (some j) d') :
    wp (scanBitmap (m.addr g) n i) Q d := by
  have hspan := m.addr_add_len_le (g := g)
  induction n generalizing i with
  | zero =>
      rw [scanBitmap, wp_pure]
      have hi : i = m.len g := by omega
      exact hnone (hi ▸ hset)
  | succ n ih =>
      have hsize : ufsBlockSize = 4096 := rfl
      have haddr : (m.addr g : Int) + (i : Int) = ((m.addr g + i : Nat) : Int) := by simp
      have hlt : m.addr g + i < g.totalBlocks := by
        unfold Counts.totalBlocks
        omega
      have hblock : ∀ b < 32768, m.bits v (32768 * i + b) = (d.image (m.addr g + i)).bit b :=
        fun b hb => h.toHolds.bits_block m (by omega) hb
      -- the bits up to `c` in this block come behind those that are known to be set
      have hbelow : ∀ c ≤ 32768, (∀ b < c, (d.image (m.addr g + i)).bit b = true) →
          ∀ j < 32768 * i + c, m.bits v j = true := by
        intro c hc hlow j hj
        rcases Nat.lt_or_ge j (32768 * i) with hold | hnew
        · exact hset j hold
        · obtain ⟨b, rfl⟩ := Nat.exists_eq_add_of_le hnew
          rw [hblock b (by omega), hlow b (by omega)]
      rw [scanBitmap, haddr, wp_bind, wp_readBlock (h.toHolds.inRange hlt), Int.toNat_natCast,
        firstClearBit]
      cases hs : FreeList.scan (d.image (m.addr g + i)).bit ufsBlockSize 8 with
      | some b =>
          obtain ⟨hb, hclear, hlow⟩ := (FreeList.scan_eq_some (by omega)).mp hs
          dsimp only
          rw [wp_bind, wp_writeBlock (h.toHolds.inRange hlt), wp_pure,
            show ufsBlockSize * 8 * i + b = 32768 * i + b from rfl]
          exact hsome _ _ (by omega) (by rw [hblock b (by omega), hclear])
            (hbelow b (by omega) hlow) (h.setBit_block m (by omega) (by omega))
      | none =>
          have hfull := (FreeList.scan_eq_none (by omega)).mp hs
          have hsmall : ¬ 2 ^ 31 ≤ ufsBlockSize * 8 * (i + 1) := by
            have hlt := m.len_lt (g := g)
            simp only [ufsBlockSize]
            omega
          dsimp only
          rw [if_neg hsmall]
          exact ih (by omega) (hbelow 32768 le_rfl fun b hb => hfull b (by omega))

/-- `allocate` takes the head of the free list, or undoes the transaction when there is
none. -/
theorem Active.wp_allocate (h : Active g im d v) (m : Bitmap) {Q : Option Nat → Disk → Prop}
    (hnil : m.free g v = [] → ∀ d', Idle g d' (g.volume im) → d'.image = im → Q none d')
    (hcons : ∀ i is d', m.free g v = i :: is → Active g im d' (m.setBit v i true) →
      Q (some i) d') :
    wp (allocate (m.addr g) (m.len g) (m.num g)) Q d := by
  have hnum := m.num_le (g := g)
  rw [allocate, wp_bind, Int.toNat_natCast]
  refine h.wp_scanBitmap m (Nat.zero_add _) (by simp) (fun hfull => ?_)
    fun j d₁ hj hclear hlow h₁ => ?_
  · exact h.wp_rollback_pure (hnil (FreeList.free_eq_nil_iff.mpr fun i hi => hfull i (by omega)))
  · dsimp only
    rw [wp_ite]
    refine ⟨fun hge => ?_, fun hge => ?_⟩
    · exact h₁.wp_rollback_pure (hnil (FreeList.free_eq_nil_iff.mpr fun i hi => hlow i (by omega)))
    · rw [wp_pure]
      obtain ⟨is, his⟩ := FreeList.exists_cons_of_lowest (n := m.num g) (by omega) hclear hlow
      exact hcons j is d₁ his h₁

/-- The free data blocks, in the order in which they will be taken. -/
def Volume.freeData (g : Geometry) (v : Volume) : List Nat := FreeList.free v.dataBit g.numData

/-- The free inodes, in the order in which they will be taken. -/
def Volume.freeInodes (g : Geometry) (v : Volume) : List Nat :=
  FreeList.free v.inodeBit g.numInodes

theorem Volume.mem_freeData {k : Nat} :
    k ∈ v.freeData g ↔ k < g.numData ∧ v.dataBit k = false := FreeList.mem_free

theorem freeData_setDataBit {k : Nat} {ks : List Nat} (h : v.freeData g = k :: ks) :
    (v.setDataBit k true).freeData g = ks := FreeList.free_take h

theorem Active.wp_allocateData (h : Active g im d v) {Q : Option Nat → Disk → Prop}
    (hnil : v.freeData g = [] → ∀ d', Idle g d' (g.volume im) → d'.image = im → Q none d')
    (hcons : ∀ k ks d', v.freeData g = k :: ks → Active g im d' (v.setDataBit k true) →
      Q (some k) d') :
    wp (allocate g.super.dataBitmapAddr g.super.dataBitmapLen g.super.numData) Q d :=
  h.wp_allocate .data hnil hcons

theorem Active.wp_allocateInode (h : Active g im d v) {Q : Option Nat → Disk → Prop}
    (hnil : v.freeInodes g = [] → ∀ d', Idle g d' (g.volume im) → d'.image = im → Q none d')
    (hcons : ∀ n ns d', v.freeInodes g = n :: ns → Active g im d' (v.setInodeBit n true) →
      Q (some n) d') :
    wp (allocate g.super.inodeBitmapAddr g.super.inodeBitmapLen g.super.numInodes) Q d :=
  h.wp_allocate .inodes hnil hcons

end Gunrock
