import Gunrock.Disk

/-!
# Volumes

What an image says, region by region: the bits of the two bitmaps, the inodes and the
data blocks.  Where the regions lie is a `Geometry`, the layout that the superblock of a
sound image describes.

The last section is the point of the file: writing one block of the image back after
changing one bit, one inode or all of it, as the file system does, changes the volume in
that one place.  Nothing above needs to know that two inodes share a block.
-/

namespace Gunrock

/-! ## Geometry -/

/-- The two numbers a layout is computed from. -/
structure Counts where
  numInodes : Nat
  numData : Nat

namespace Counts

variable (c : Counts)

def inodeBitmapLen : Nat := (c.numInodes + 32767) / 32768
def dataBitmapLen : Nat := (c.numData + 32767) / 32768
def inodeRegionLen : Nat := (c.numInodes + 31) / 32
def dataBitmapAddr : Nat := 1 + c.inodeBitmapLen
def inodeRegionAddr : Nat := c.dataBitmapAddr + c.dataBitmapLen
def dataRegionAddr : Nat := c.inodeRegionAddr + c.inodeRegionLen
def totalBlocks : Nat := c.dataRegionAddr + c.numData

/-- The superblock that describes the layout. -/
def super : Super :=
  { inodeBitmapAddr := 1
    inodeBitmapLen := c.inodeBitmapLen
    dataBitmapAddr := c.dataBitmapAddr
    dataBitmapLen := c.dataBitmapLen
    inodeRegionAddr := c.inodeRegionAddr
    inodeRegionLen := c.inodeRegionLen
    dataRegionAddr := c.dataRegionAddr
    dataRegionLen := c.numData
    numInodes := c.numInodes
    numData := c.numData }

end Counts

/-- Counts whose layout makes an image of fewer than `2 ^ 31` bytes. -/
structure Geometry extends Counts where
  numInodes_ge : 32 ≤ numInodes
  numData_ge : 32 ≤ numData
  totalBlocks_lt : toCounts.totalBlocks * 4096 < 2 ^ 31

namespace Geometry

variable (g : Geometry)

theorem numInodes_le_bitmap : g.numInodes ≤ 32768 * g.inodeBitmapLen := by
  unfold Counts.inodeBitmapLen
  omega

theorem numData_le_bitmap : g.numData ≤ 32768 * g.dataBitmapLen := by
  unfold Counts.dataBitmapLen
  omega

theorem numInodes_le_region : g.numInodes ≤ 32 * g.inodeRegionLen := by
  unfold Counts.inodeRegionLen
  omega

/-- No count or address comes anywhere near the limits of an `int`. -/
theorem bounds : g.numInodes ≤ 2 ^ 24 ∧ g.numData < 2 ^ 19 ∧ g.totalBlocks < 2 ^ 19 := by
  have h := g.totalBlocks_lt
  have hi := g.numInodes_le_region
  unfold Counts.totalBlocks Counts.dataRegionAddr at h
  unfold Counts.totalBlocks Counts.dataRegionAddr
  omega

end Geometry

/-- Block `b` lies in one of the four regions that `s` delimits. -/
def Super.InRegion (s : Super) (b : Int) : Prop :=
  (s.inodeBitmapAddr ≤ b ∧ b < s.inodeBitmapAddr + s.inodeBitmapLen) ∨
  (s.dataBitmapAddr ≤ b ∧ b < s.dataBitmapAddr + s.dataBitmapLen) ∨
  (s.inodeRegionAddr ≤ b ∧ b < s.inodeRegionAddr + s.inodeRegionLen) ∨
  (s.dataRegionAddr ≤ b ∧ b < s.dataRegionAddr + s.dataRegionLen)

/-- The regions follow each other from block 1 to the end of the image. -/
theorem Geometry.inRegion_iff (g : Geometry) (b : Int) :
    g.super.InRegion b ↔ 1 ≤ b ∧ b < g.totalBlocks := by
  simp only [Super.InRegion, Counts.super, Counts.totalBlocks, Counts.dataRegionAddr,
    Counts.inodeRegionAddr, Counts.dataBitmapAddr]
  omega

/-! ## Volumes -/

/-- The contents of the regions of an image. -/
@[ext]
structure Volume where
  inodeBit : Nat → Bool
  dataBit : Nat → Bool
  inode : Nat → Inode
  /-- By position in the data region. -/
  data : Nat → Block

namespace Volume

def setInodeBit (v : Volume) (i : Nat) (b : Bool) : Volume :=
  { v with inodeBit := Function.update v.inodeBit i b }

def setDataBit (v : Volume) (k : Nat) (b : Bool) : Volume :=
  { v with dataBit := Function.update v.dataBit k b }

def setInode (v : Volume) (i : Nat) (inode : Inode) : Volume :=
  { v with inode := Function.update v.inode i inode }

def setData (v : Volume) (k : Nat) (b : Block) : Volume :=
  { v with data := Function.update v.data k b }

section Setters

variable (v : Volume) (i j : Nat) (b : Bool) (inode : Inode) (blk : Block)

@[simp] theorem inodeBit_setInodeBit :
    (v.setInodeBit i b).inodeBit = Function.update v.inodeBit i b := rfl
@[simp] theorem dataBit_setInodeBit : (v.setInodeBit i b).dataBit = v.dataBit := rfl
@[simp] theorem inode_setInodeBit : (v.setInodeBit i b).inode = v.inode := rfl
@[simp] theorem data_setInodeBit : (v.setInodeBit i b).data = v.data := rfl

@[simp] theorem inodeBit_setDataBit : (v.setDataBit i b).inodeBit = v.inodeBit := rfl
@[simp] theorem dataBit_setDataBit :
    (v.setDataBit i b).dataBit = Function.update v.dataBit i b := rfl
@[simp] theorem inode_setDataBit : (v.setDataBit i b).inode = v.inode := rfl
@[simp] theorem data_setDataBit : (v.setDataBit i b).data = v.data := rfl

@[simp] theorem inodeBit_setInode : (v.setInode i inode).inodeBit = v.inodeBit := rfl
@[simp] theorem dataBit_setInode : (v.setInode i inode).dataBit = v.dataBit := rfl
@[simp] theorem inode_setInode :
    (v.setInode i inode).inode = Function.update v.inode i inode := rfl
@[simp] theorem data_setInode : (v.setInode i inode).data = v.data := rfl

@[simp] theorem inodeBit_setData : (v.setData i blk).inodeBit = v.inodeBit := rfl
@[simp] theorem dataBit_setData : (v.setData i blk).dataBit = v.dataBit := rfl
@[simp] theorem inode_setData : (v.setData i blk).inode = v.inode := rfl
@[simp] theorem data_setData : (v.setData i blk).data = Function.update v.data i blk := rfl

end Setters

/-! What the loops do: several bits of the data bitmap, and several data blocks, where block
`q y` gets the contents `f y`. -/

def setDataBits (v : Volume) (ks : List Nat) (b : Bool) : Volume :=
  { v with dataBit := fun k => if k ∈ ks then b else v.dataBit k }

def setDatas (v : Volume) (q : Nat → Nat) (f : Nat → Block) (x n : Nat) : Volume :=
  { v with data := fun k => match (List.range' x n).find? (q · = k) with
    | some y => f y
    | none => v.data k }

section Bulk

variable (v : Volume) (k : Nat) (ks : List Nat) (b : Bool) (q : Nat → Nat) (f : Nat → Block)
variable {x n : Nat}

@[simp] theorem inodeBit_setDataBits : (v.setDataBits ks b).inodeBit = v.inodeBit := rfl
@[simp] theorem inode_setDataBits : (v.setDataBits ks b).inode = v.inode := rfl
@[simp] theorem data_setDataBits : (v.setDataBits ks b).data = v.data := rfl
@[simp] theorem dataBit_setDataBits :
    (v.setDataBits ks b).dataBit k = if k ∈ ks then b else v.dataBit k := rfl

@[simp] theorem setDataBits_nil : v.setDataBits [] b = v := by
  simp [setDataBits]

theorem setDataBits_cons :
    (v.setDataBit k b).setDataBits ks b = v.setDataBits (k :: ks) b := by
  apply Volume.ext
  · rfl
  · funext j
    simp only [dataBit_setDataBits, dataBit_setDataBit, Function.update_apply, List.mem_cons]
    by_cases hj : j ∈ ks <;> by_cases hk : j = k <;> simp [hj, hk]
  · rfl
  · rfl

@[simp] theorem inodeBit_setDatas : (v.setDatas q f x n).inodeBit = v.inodeBit := rfl
@[simp] theorem dataBit_setDatas : (v.setDatas q f x n).dataBit = v.dataBit := rfl
@[simp] theorem inode_setDatas : (v.setDatas q f x n).inode = v.inode := rfl

@[simp] theorem setDatas_zero : v.setDatas q f x 0 = v := rfl

theorem data_setDatas_of_ne (h : ∀ y, x ≤ y → y < x + n → q y ≠ k) :
    (v.setDatas q f x n).data k = v.data k := by
  have hnone : (List.range' x n).find? (q · = k) = none := by
    rw [List.find?_eq_none]
    intro y hy
    have hy := List.mem_range'_1.mp hy
    simpa using h y hy.1 hy.2
  simp only [setDatas, hnone]

theorem data_setDatas {y : Nat} (hinj : ∀ z, x ≤ z → z < x + n → q z = q y → z = y)
    (h1 : x ≤ y) (h2 : y < x + n) : (v.setDatas q f x n).data (q y) = f y := by
  have hsome : (List.range' x n).find? (q · = q y) = some y := by
    rw [List.find?_range'_eq_some]
    refine ⟨by simp, List.mem_range'_1.mpr ⟨h1, h2⟩, fun z hz hzy => ?_⟩
    have hne : q z ≠ q y := fun e => by
      have := hinj z hz (by omega) e
      omega
    simpa using hne
  simp only [setDatas, hsome]

theorem setDatas_congr {f f' : Nat → Block} (h : ∀ y, x ≤ y → y < x + n → f y = f' y) :
    v.setDatas q f x n = v.setDatas q f' x n := by
  apply Volume.ext
  · rfl
  · rfl
  · rfl
  · funext k
    simp only [setDatas]
    split
    · rename_i y hy
      have hy := List.mem_range'_1.mp (List.mem_of_find?_eq_some hy)
      exact h y hy.1 hy.2
    · rfl

theorem setDatas_succ (hinj : ∀ y, x < y → y < x + (n + 1) → q y ≠ q x) :
    (v.setData (q x) (f x)).setDatas q f (x + 1) n = v.setDatas q f x (n + 1) := by
  apply Volume.ext
  · rfl
  · rfl
  · rfl
  · funext j
    simp only [setDatas, List.range'_succ, List.find?_cons, data_setData, Function.update_apply]
    by_cases hj : q x = j
    · subst hj
      have hnone : (List.range' (x + 1) n).find? (q · = q x) = none := by
        rw [List.find?_eq_none]
        intro y hy
        have hy := List.mem_range'_1.mp hy
        simpa using hinj y (by omega) (by omega)
      simp [hnone]
    · have hj' : ¬ j = q x := fun e => hj e.symm
      simp only [hj, decide_false, hj', if_false]

end Bulk

end Volume

namespace Geometry

variable (g : Geometry)

/-- The volume on an image laid out by `g`. -/
def volume (im : Nat → Block) : Volume where
  inodeBit i := decide (i < 32768 * g.inodeBitmapLen) && (im (1 + i / 32768)).bit (i % 32768)
  dataBit k := decide (k < 32768 * g.dataBitmapLen) &&
    (im (g.dataBitmapAddr + k / 32768)).bit (k % 32768)
  inode i := if i < 32 * g.inodeRegionLen then (im (g.inodeRegionAddr + i / 32)).inode (i % 32)
    else ⟨0, 0, fun _ => 0⟩
  data k := if k < g.numData then im (g.dataRegionAddr + k) else Buffer.zero

variable {g} {im : Nat → Block}

theorem inodeBit_volume {i : Nat} (h : i < 32768 * g.inodeBitmapLen) :
    (g.volume im).inodeBit i = (im (1 + i / 32768)).bit (i % 32768) := by
  simp [volume, h]

theorem dataBit_volume {k : Nat} (h : k < 32768 * g.dataBitmapLen) :
    (g.volume im).dataBit k = (im (g.dataBitmapAddr + k / 32768)).bit (k % 32768) := by
  simp [volume, h]

theorem inode_volume {i : Nat} (h : i < 32 * g.inodeRegionLen) :
    (g.volume im).inode i = (im (g.inodeRegionAddr + i / 32)).inode (i % 32) := by
  simp [volume, h]

theorem data_volume {k : Nat} (h : k < g.numData) :
    (g.volume im).data k = im (g.dataRegionAddr + k) := by
  simp [volume, h]

/-- Whatever the image, its inodes fit their fields. -/
theorem fits_inode_volume (i : Nat) : ((g.volume im).inode i).Fits := by
  unfold volume
  dsimp only
  split
  · exact Block.fits_inode _ _
  · exact ⟨⟨by decide, by decide⟩, ⟨by decide, by decide⟩, fun _ => Nat.two_pow_pos 32⟩

/-! ## Writing blocks back

Each region is a function of its own blocks. -/

variable {im' : Nat → Block}

theorem inodeBit_congr (h : ∀ b, 1 ≤ b → b < g.dataBitmapAddr → im b = im' b) :
    (g.volume im).inodeBit = (g.volume im').inodeBit := by
  funext i
  by_cases hi : i < 32768 * g.inodeBitmapLen
  · rw [inodeBit_volume hi, inodeBit_volume hi,
      h _ (by omega) (by unfold Counts.dataBitmapAddr; omega)]
  · simp [volume, hi]

theorem dataBit_congr (h : ∀ b, g.dataBitmapAddr ≤ b → b < g.inodeRegionAddr → im b = im' b) :
    (g.volume im).dataBit = (g.volume im').dataBit := by
  funext k
  by_cases hk : k < 32768 * g.dataBitmapLen
  · rw [dataBit_volume hk, dataBit_volume hk,
      h _ (by omega) (by unfold Counts.inodeRegionAddr; omega)]
  · simp [volume, hk]

theorem inode_congr (h : ∀ b, g.inodeRegionAddr ≤ b → b < g.dataRegionAddr → im b = im' b) :
    (g.volume im).inode = (g.volume im').inode := by
  funext i
  by_cases hi : i < 32 * g.inodeRegionLen
  · rw [inode_volume hi, inode_volume hi,
      h _ (by omega) (by unfold Counts.dataRegionAddr; omega)]
  · simp [volume, hi]

theorem data_congr (h : ∀ b, g.dataRegionAddr ≤ b → b < g.totalBlocks → im b = im' b) :
    (g.volume im).data = (g.volume im').data := by
  funext k
  by_cases hk : k < g.numData
  · rw [data_volume hk, data_volume hk, h _ (by omega) (by unfold Counts.totalBlocks; omega)]
  · simp [volume, hk]

theorem dataBitmapAddr_le : g.dataBitmapAddr ≤ g.inodeRegionAddr := by
  unfold Counts.inodeRegionAddr
  omega

theorem inodeRegionAddr_le : g.inodeRegionAddr ≤ g.dataRegionAddr := by
  unfold Counts.dataRegionAddr
  omega

theorem volume_update_inodeBitmap {i : Nat} {b : Bool} {blk : Block}
    (hi : i < 32768 * g.inodeBitmapLen)
    (hblk : ∀ j < 32768, blk.bit j = if j = i % 32768 then b else (im (1 + i / 32768)).bit j) :
    g.volume (Function.update im (1 + i / 32768) blk) = (g.volume im).setInodeBit i b := by
  have hle := dataBitmapAddr_le (g := g)
  have hle' := inodeRegionAddr_le (g := g)
  have hlt : 1 + i / 32768 < g.dataBitmapAddr := by
    unfold Counts.dataBitmapAddr
    omega
  apply Volume.ext
  · funext j
    simp only [volume, Volume.inodeBit_setInodeBit, Function.update_apply]
    by_cases hj : j / 32768 = i / 32768
    · rw [if_pos (by omega), hblk _ (by omega)]
      by_cases hji : j = i
      · subst hji
        simp [hi]
      · rw [if_neg (by omega), if_neg hji, hj]
    · rw [if_neg (by omega), if_neg (by rintro rfl; exact hj rfl)]
  · exact dataBit_congr fun c h _ => Function.update_of_ne (by omega) _ _
  · exact inode_congr fun c h _ => Function.update_of_ne (by omega) _ _
  · exact data_congr fun c h _ => Function.update_of_ne (by omega) _ _

theorem volume_update_dataBitmap {k : Nat} {b : Bool} {blk : Block}
    (hk : k < 32768 * g.dataBitmapLen)
    (hblk : ∀ j < 32768, blk.bit j =
      if j = k % 32768 then b else (im (g.dataBitmapAddr + k / 32768)).bit j) :
    g.volume (Function.update im (g.dataBitmapAddr + k / 32768) blk) =
      (g.volume im).setDataBit k b := by
  have hle := inodeRegionAddr_le (g := g)
  have hlt : g.dataBitmapAddr + k / 32768 < g.inodeRegionAddr := by
    unfold Counts.inodeRegionAddr
    omega
  apply Volume.ext
  · exact inodeBit_congr fun c _ h => Function.update_of_ne (by omega) _ _
  · funext j
    simp only [volume, Volume.dataBit_setDataBit, Function.update_apply]
    by_cases hj : j / 32768 = k / 32768
    · rw [if_pos (by omega), hblk _ (by omega)]
      by_cases hjk : j = k
      · subst hjk
        simp [hk]
      · rw [if_neg (by omega), if_neg hjk, hj]
    · rw [if_neg (by omega), if_neg (by rintro rfl; exact hj rfl)]
  · exact inode_congr fun c h _ => Function.update_of_ne (by omega) _ _
  · exact data_congr fun c h _ => Function.update_of_ne (by omega) _ _

theorem volume_update_inodeRegion {i : Nat} {inode : Inode} (hi : i < 32 * g.inodeRegionLen)
    (hf : inode.Fits) :
    g.volume (Function.update im (g.inodeRegionAddr + i / 32)
        (Block.setInode (im (g.inodeRegionAddr + i / 32)) (i % 32) inode)) =
      (g.volume im).setInode i inode := by
  have hle := dataBitmapAddr_le (g := g)
  have hlt : g.inodeRegionAddr + i / 32 < g.dataRegionAddr := by
    unfold Counts.dataRegionAddr
    omega
  apply Volume.ext
  · exact inodeBit_congr fun c _ h => Function.update_of_ne (by omega) _ _
  · exact dataBit_congr fun c _ h => Function.update_of_ne (by omega) _ _
  · funext j
    simp only [volume, Volume.inode_setInode, Function.update_apply]
    by_cases hj : j / 32 = i / 32
    · rw [if_pos (show g.inodeRegionAddr + j / 32 = g.inodeRegionAddr + i / 32 by omega)]
      by_cases hji : j = i
      · subst hji
        rw [if_pos hi, if_pos rfl, Block.inode_setInode hf (by omega)]
      · rw [Block.inode_setInode_of_ne (by omega) (by omega), if_neg hji, hj]
    · rw [if_neg (show ¬ g.inodeRegionAddr + j / 32 = g.inodeRegionAddr + i / 32 by omega),
        if_neg (show ¬ j = i by rintro rfl; exact hj rfl)]
  · exact data_congr fun c h _ => Function.update_of_ne (by omega) _ _

theorem volume_update_data {k : Nat} {blk : Block} (hk : k < g.numData) :
    g.volume (Function.update im (g.dataRegionAddr + k) blk) = (g.volume im).setData k blk := by
  have hle := dataBitmapAddr_le (g := g)
  have hle' := inodeRegionAddr_le (g := g)
  apply Volume.ext
  · exact inodeBit_congr fun c _ h => Function.update_of_ne (by omega) _ _
  · exact dataBit_congr fun c _ h => Function.update_of_ne (by omega) _ _
  · exact inode_congr fun c _ h => Function.update_of_ne (by omega) _ _
  · funext j
    simp only [volume, Volume.data_setData, Function.update_apply]
    by_cases hj : j = k
    · subst hj
      simp [hk]
    · rw [if_neg (show ¬ g.dataRegionAddr + j = g.dataRegionAddr + k by omega), if_neg hj]

end Geometry

end Gunrock
