import Gunrock.Mkfs
import Gunrock.Sound

/-!
# What `mkfs` makes

The image of `mkfs.c` is sound: its one inode is the root, an empty directory in the first
data block.

This needs that `main`'s two sums fit an `int` (`Mkfs.NoOverflow`).  Where they do not,
`mkfs` goes on with a layout whose regions overlap, and may even succeed.
-/

namespace Gunrock

/-! ## The layout -/

namespace Mkfs

/-- The bytes of the inode table and the number of blocks can be computed in an `int`. -/
def NoOverflow (numInodes numData : Int) : Prop :=
  let s := layout numInodes numData
  Buffer.FitsInt (numInodes * 128) ∧
    Buffer.FitsInt (1 + s.inodeBitmapLen + s.dataBitmapLen + s.inodeRegionLen + s.dataRegionLen)

instance (numInodes numData : Int) : Decidable (NoOverflow numInodes numData) :=
  inferInstanceAs (Decidable ((_ ∧ _) ∧ (_ ∧ _)))

theorem ceilDiv_natCast (n : Nat) {m : Nat} (hm : 0 < m) :
    ceilDiv n m = ((n + (m - 1)) / m : Nat) := by
  rw [ceilDiv, ← Int.ofNat_tmod, ← Int.ofNat_tdiv]
  have hdiv := Nat.div_add_mod n m
  have hlt := Nat.mod_lt n hm
  by_cases h0 : n % m = 0
  · have hquot : (n + (m - 1)) / m = n / m := by
      have hsum : n + (m - 1) = m * (n / m) + (m - 1) := by omega
      rw [hsum, Nat.mul_add_div hm, Nat.div_eq_of_lt (show m - 1 < m by omega), Nat.add_zero]
    rw [if_neg (by simp [h0]), hquot]
  · have hquot : (n + (m - 1)) / m = n / m + 1 := by
      have hsum : n + (m - 1) = m * (n / m + 1) + (n % m - 1) := by
        rw [Nat.mul_add]
        omega
      rw [hsum, Nat.mul_add_div hm, Nat.div_eq_of_lt (show n % m - 1 < m by omega), Nat.add_zero]
    rw [if_pos (by exact_mod_cast h0), hquot]
    rfl

theorem layout_eq (c : Counts) (h : Buffer.FitsInt (c.numInodes * 128)) :
    layout c.numInodes c.numData = c.super := by
  have hbits : (8 * ((ufsBlockSize : Nat) : Int)) = ((32768 : Nat) : Int) := rfl
  have hbytes : int32 (c.numInodes * 128) = ((c.numInodes * 128 : Nat) : Int) := by
    rw [int32_of_fits h, Int.natCast_mul]
    rfl
  have hregion : (c.numInodes * 128 + (4096 - 1)) / 4096 = (c.numInodes + 31) / 32 := by omega
  simp only [layout, hbits, hbytes, ceilDiv_natCast _ (show 0 < 32768 by decide),
    ceilDiv_natCast _ (show 0 < ufsBlockSize by decide)]
  simp only [ufsBlockSize, hregion, Counts.super, Counts.dataRegionAddr, Counts.inodeRegionAddr,
    Counts.dataBitmapAddr, Counts.inodeBitmapLen, Counts.dataBitmapLen, Counts.inodeRegionLen,
    Int.natCast_add]
  rfl

theorem totalBlocks_super (c : Counts) (h : Buffer.FitsInt (1 + c.super.inodeBitmapLen +
    c.super.dataBitmapLen + c.super.inodeRegionLen + c.super.dataRegionLen)) :
    totalBlocks c.super = c.totalBlocks := by
  rw [totalBlocks, int32_of_fits h]
  simp only [Counts.super, Counts.totalBlocks, Counts.dataRegionAddr, Counts.inodeRegionAddr,
    Counts.dataBitmapAddr]
  omega

end Mkfs

/-- The regions are in order, and none is empty. -/
theorem Counts.addr_lt (c : Counts) (hi : 0 < c.numInodes) (hd : 0 < c.numData) :
    1 < c.dataBitmapAddr ∧ c.dataBitmapAddr < c.inodeRegionAddr ∧
      c.inodeRegionAddr < c.dataRegionAddr := by
  unfold dataRegionAddr inodeRegionAddr dataBitmapAddr inodeBitmapLen dataBitmapLen inodeRegionLen
  omega

/-! ## The file -/

namespace ImageFile

variable {f f' : ImageFile} {b : Block} {i n k : Nat}

theorem pwriteBlock_eq (hk : k < 2 ^ 19) : f.pwriteBlock k b =
    some { size := max f.size ((k + 1 : Nat) * 4096), block := Function.update f.block k b } := by
  have hfits : Buffer.FitsInt ((k : Int) * (ufsBlockSize : Nat)) := by
    constructor <;> simp only [ufsBlockSize] <;> omega
  have hpos : ¬ (k : Int) * ((ufsBlockSize : Nat) : Int) < 0 := by
    simp only [ufsBlockSize]
    omega
  have hsize : (k : Int) * ((ufsBlockSize : Nat) : Int) + ((ufsBlockSize : Nat) : Int) =
      (k + 1 : Nat) * 4096 := by
    simp only [ufsBlockSize]
    omega
  have hblock : ((k : Int) * ((ufsBlockSize : Nat) : Int) / ((ufsBlockSize : Nat) : Int)).toNat =
      k := by
    simp only [ufsBlockSize]
    omega
  simp only [pwriteBlock, int32_of_fits hfits, if_neg hpos, hsize, hblock]

/-- The offset of block `2 ^ 19` is negative as an `int`. -/
theorem pwriteBlock_overflow : f.pwriteBlock ((2 ^ 19 : Nat) : Int) b = none := by
  have hneg : int32 (((2 ^ 19 : Nat) : Int) * ((ufsBlockSize : Nat) : Int)) < 0 := by decide
  rw [pwriteBlock, if_pos hneg]

/-- Zeroing blocks that are zero already, from the end of the file on. -/
theorem zeroBlocks_eq (hn : i + n ≤ 2 ^ 19) (hsize : f.size = (i : Int) * 4096)
    (hz : ∀ b, i ≤ b → f.block b = Buffer.zero) :
    f.zeroBlocks n i = some ⟨(i + n : Nat) * 4096, f.block⟩ := by
  induction n generalizing f i with
  | zero =>
      rw [zeroBlocks, Nat.add_zero, ← hsize]
  | succ n ih =>
      have hsame : Function.update f.block i Buffer.zero = f.block :=
        Function.update_eq_self_iff.mpr (hz i le_rfl).symm
      have hgrow : max f.size ((i + 1 : Nat) * 4096) = (i + 1 : Nat) * 4096 := by
        rw [hsize]
        exact max_eq_right (by omega)
      have hrest := ih (f := ⟨(i + 1 : Nat) * 4096, f.block⟩) (i := i + 1) (by omega) rfl
        fun b hb => hz b (by omega)
      rw [zeroBlocks, pwriteBlock_eq (by omega), Option.bind_eq_bind, Option.bind_some, hsame, hgrow,
        hrest, show i + 1 + n = i + (n + 1) by omega]

/-- The first negative offset stops the loop. -/
theorem zeroBlocks_overflow (hi : i ≤ 2 ^ 19) (hn : 2 ^ 19 < i + n) : f.zeroBlocks n i = none := by
  induction n generalizing f i with
  | zero => omega
  | succ n ih =>
      rcases Nat.lt_or_eq_of_le hi with hlt | rfl
      · rw [zeroBlocks, pwriteBlock_eq hlt, Option.bind_eq_bind, Option.bind_some]
        exact ih (by omega) (by omega)
      · rw [zeroBlocks, pwriteBlock_overflow]
        rfl

end ImageFile

namespace Mkfs

/-- The blocks `mkfs` writes, in the order in which it writes them. -/
def blocks (s : Super) (dataBitmapAddr inodeRegionAddr dataRegionAddr : Nat)
    (itable parent : Block) : Nat → Block :=
  Function.update
    (Function.update
      (Function.update
        (Function.update
          (Function.update (fun _ => Buffer.zero) 0 s.encode)
          1 firstBit)
        dataBitmapAddr firstBit)
      inodeRegionAddr (rootInode s itable))
    dataRegionAddr (rootDirectory parent)

variable {numInodes numData : Int} {itable parent : Block} {f : ImageFile}

/-- `mkfs` goes through when no offset is negative. -/
theorem mkfs_eq {s : Super} (a b c t : Nat) (hi : 32 ≤ numInodes) (hd : 32 ≤ numData)
    (hs : layout numInodes numData = s) (h1 : s.inodeBitmapAddr = (1 : Nat))
    (ha : s.dataBitmapAddr = a) (hb : s.inodeRegionAddr = b)
    (hc : s.dataRegionAddr = c) (ht : totalBlocks s = t) (ht2 : 2 ≤ t) (hmax : t ≤ 2 ^ 19)
    (hlt : a < 2 ^ 19 ∧ b < 2 ^ 19 ∧ c < 2 ^ 19) :
    mkfs numInodes numData itable parent =
      some ⟨max (max (max (t * 4096) ((a + 1 : Nat) * 4096)) ((b + 1 : Nat) * 4096))
        ((c + 1 : Nat) * 4096), blocks s a b c itable parent⟩ := by
  obtain ⟨m, rfl⟩ : ∃ m, t = 2 + m := ⟨t - 2, by omega⟩
  have hzero : ∀ k, 1 ≤ k → Function.update (fun _ => Buffer.zero) 0 s.encode k = Buffer.zero :=
    fun k hk => Function.update_of_ne (by omega) _ _
  have hsame : Function.update (Function.update (fun _ => Buffer.zero) 0 s.encode) 1 Buffer.zero =
      Function.update (fun _ => Buffer.zero) 0 s.encode :=
    Function.update_eq_self_iff.mpr (hzero 1 le_rfl).symm
  have hfirst : ((2 + m : Nat) - 1 : Int).toNat = m + 1 := by omega
  have hgrow : max ((2 + m : Nat) * 4096 : Int) ((1 + 1 : Nat) * 4096) = (2 + m : Nat) * 4096 :=
    max_eq_left (by omega)
  rw [mkfs, if_neg (by omega)]
  dsimp only
  rw [hs, ht, hfirst, h1, ha, hb, hc, ImageFile.zeroBlocks]
  rw [ImageFile.pwriteBlock_eq (by decide), Option.bind_eq_bind, Option.bind_some, hsame,
    show max (40 : Int) ((1 + 1 : Nat) * 4096) = (2 : Nat) * 4096 from rfl,
    ImageFile.zeroBlocks_eq (by omega) rfl fun k hk => hzero k (by omega),
    Option.bind_some, ImageFile.pwriteBlock_eq (by decide), Option.bind_some,
    ImageFile.pwriteBlock_eq hlt.1, Option.bind_some, ImageFile.pwriteBlock_eq hlt.2.1,
    Option.bind_some, ImageFile.pwriteBlock_eq hlt.2.2, hgrow, blocks]

section Counts

variable {c : Counts}

/-- The layout and its size, when the counts do not overflow. -/
theorem layout_counts (hno : NoOverflow c.numInodes c.numData) :
    layout c.numInodes c.numData = c.super ∧ totalBlocks c.super = c.totalBlocks := by
  have hlayout : layout c.numInodes c.numData = c.super := layout_eq c hno.1
  have hfits := hno.2
  rw [hlayout] at hfits
  exact ⟨hlayout, totalBlocks_super c hfits⟩

/-- No offset is negative in an image of at most `2 ^ 19` blocks. -/
theorem mkfs_counts (hi : 32 ≤ c.numInodes) (hd : 32 ≤ c.numData)
    (hno : NoOverflow c.numInodes c.numData) (hmax : c.totalBlocks ≤ 2 ^ 19) :
    mkfs c.numInodes c.numData itable parent = some ⟨c.totalBlocks * 4096,
      blocks c.super c.dataBitmapAddr c.inodeRegionAddr c.dataRegionAddr itable parent⟩ := by
  obtain ⟨hlayout, htotal⟩ := layout_counts hno
  obtain ⟨h1, h2, h3⟩ := c.addr_lt (by omega) (by omega)
  have h4 : c.dataRegionAddr + c.numData = c.totalBlocks := rfl
  have hle : ∀ {k : Nat}, k < c.totalBlocks →
      max (c.totalBlocks * 4096 : Int) ((k + 1 : Nat) * 4096) = c.totalBlocks * 4096 :=
    fun hk => max_eq_left (by omega)
  rw [mkfs_eq _ _ _ _ (by omega) (by omega) hlayout rfl rfl rfl rfl htotal (by omega) hmax
    (by omega), hle (by omega), hle (by omega), hle (by omega)]

/-- In a larger one the loop that zeroes the blocks comes to a negative offset. -/
theorem mkfs_counts_overflow (hi : 32 ≤ c.numInodes) (hd : 32 ≤ c.numData)
    (hno : NoOverflow c.numInodes c.numData) (hgt : 2 ^ 19 < c.totalBlocks) :
    mkfs c.numInodes c.numData itable parent = none := by
  obtain ⟨hlayout, htotal⟩ := layout_counts hno
  rw [mkfs, if_neg (by omega)]
  dsimp only
  rw [hlayout, htotal, ImageFile.zeroBlocks_overflow (by decide) (by omega)]
  rfl

end Counts

/-- `mkfs` asserts that both counts are at least 32. -/
theorem ge_of_mkfs (h : mkfs numInodes numData itable parent = some f) :
    ∃ c : Counts, (c.numInodes : Int) = numInodes ∧ (c.numData : Int) = numData ∧
      32 ≤ c.numInodes ∧ 32 ≤ c.numData := by
  have hge : 32 ≤ numInodes ∧ 32 ≤ numData := by
    by_contra hlt
    rw [mkfs, if_pos (by omega)] at h
    cases h
  obtain ⟨n, rfl⟩ := Int.eq_ofNat_of_zero_le (show 0 ≤ numInodes by omega)
  obtain ⟨m, rfl⟩ := Int.eq_ofNat_of_zero_le (show 0 ≤ numData by omega)
  exact ⟨⟨n, m⟩, rfl, rfl, by dsimp only; omega, by dsimp only; omega⟩

/-- A run of `mkfs` that went through with a layout in order. -/
theorem mkfs_eq_some (h : mkfs numInodes numData itable parent = some f)
    (hno : NoOverflow numInodes numData) (hsize : f.size < 2 ^ 31) :
    ∃ g : Geometry, (g.numInodes : Int) = numInodes ∧ (g.numData : Int) = numData ∧
      f.size = g.totalBlocks * 4096 ∧ f.block = blocks g.super g.dataBitmapAddr g.inodeRegionAddr
        g.dataRegionAddr itable parent := by
  obtain ⟨c, rfl, rfl, hi, hd⟩ := ge_of_mkfs h
  have hmax : c.totalBlocks ≤ 2 ^ 19 := by
    by_contra hgt
    rw [mkfs_counts_overflow hi hd hno (by omega)] at h
    cases h
  rw [mkfs_counts hi hd hno hmax] at h
  cases h
  dsimp only at hsize ⊢
  exact ⟨⟨c, hi, hd, by omega⟩, rfl, rfl, rfl, rfl⟩

/-! ### Three images

The second and the third are the result of an overflow.  Both are small, though the number
of inodes is not. -/

/-- 32 inodes and 32 data blocks. -/
def ordinary : ImageFile := ⟨36 * 4096, blocks (layout 32 32) 2 3 4 Buffer.zero Buffer.zero⟩

theorem mkfs_ordinary : mkfs 32 32 Buffer.zero Buffer.zero = some ordinary :=
  mkfs_eq 2 3 4 36 (by decide) (by decide) rfl (by decide) (by decide) (by decide) (by decide)
    (by decide) (by decide) (by decide) (by decide)

/-- With 33554400 inodes the inode table has `-1` blocks, and the first data block is the
block of the data bitmap. -/
def overlapping : ImageFile :=
  ⟨1057 * 4096, blocks (layout 33554400 32) 1025 1026 1025 Buffer.zero Buffer.zero⟩

theorem mkfs_overlapping : mkfs 33554400 32 Buffer.zero Buffer.zero = some overlapping :=
  mkfs_eq 1025 1026 1025 1057 (by decide) (by decide) rfl (by decide) (by decide) (by decide)
    (by decide) (by decide) (by decide) (by decide) (by decide)

/-- With 33521664 inodes the inode table has `-1024` blocks, and the data region starts in
block 1, which is the first one of the inode bitmap. -/
def backwards : ImageFile :=
  ⟨1026 * 4096, blocks (layout 33521664 32) 1024 1025 1 Buffer.zero Buffer.zero⟩

theorem mkfs_backwards : mkfs 33521664 32 Buffer.zero Buffer.zero = some backwards :=
  mkfs_eq 1024 1025 1 33 (by decide) (by decide) rfl (by decide) (by decide) (by decide)
    (by decide) (by decide) (by decide) (by decide) (by decide)

end Mkfs

/-- The image that `mkfs` writes. -/
def Geometry.freshImage (g : Geometry) (itable parent : Block) : Nat → Block :=
  Mkfs.blocks g.super g.dataBitmapAddr g.inodeRegionAddr g.dataRegionAddr itable parent

theorem Geometry.freshImage_apply (g : Geometry) (itable parent : Block) (b : Nat) :
    g.freshImage itable parent b =
      if b = g.dataRegionAddr then Mkfs.rootDirectory parent
      else if b = g.inodeRegionAddr then Mkfs.rootInode g.super itable
      else if b = g.dataBitmapAddr then Mkfs.firstBit
      else if b = 1 then Mkfs.firstBit
      else if b = 0 then g.super.encode
      else Buffer.zero := by
  simp only [freshImage, Mkfs.blocks, Function.update_apply]

/-- The disk that is opened on an image of `g`. -/
def Geometry.bootDisk (g : Geometry) (im : Nat → Block) : Disk :=
  { imageFileSize := g.totalBlocks * 4096
    image := im
    isInTransaction := false
    undoLog := []
    written := [] }

theorem Geometry.new_eq_some (g : Geometry) (im : Nat → Block) :
    Disk.new (g.totalBlocks * 4096) im = some (g.bootDisk im) := by
  have hb := g.bounds
  have hfits : Buffer.FitsInt (g.totalBlocks * 4096) := by
    constructor <;> omega
  have hmod : ((g.totalBlocks : Int) * 4096).tmod ((ufsBlockSize : Nat) : Int) = 0 :=
    Int.mul_tmod_left _ _
  rw [Disk.new, int32_of_fits hfits, if_neg (by rw [hmod]; exact fun h => h rfl)]
  rfl

@[simp] theorem Geometry.image_bootDisk (g : Geometry) (im : Nat → Block) :
    (g.bootDisk im).image = im := rfl

theorem Geometry.numberOfBlocks_bootDisk (g : Geometry) (im : Nat → Block) :
    (g.bootDisk im).numberOfBlocks = g.totalBlocks :=
  Int.mul_tdiv_cancel _ (by decide)

/-! ## The volume -/

theorem Geometry.fits_super (g : Geometry) : g.super.Fits := by
  have hb := g.bounds
  have hle := g.numInodes_le_bitmap
  have hlen : g.inodeBitmapLen < 2 ^ 31 ∧ g.dataBitmapLen < 2 ^ 31 ∧ g.inodeRegionLen < 2 ^ 31 ∧
      g.dataBitmapAddr < 2 ^ 31 ∧ g.inodeRegionAddr < 2 ^ 31 ∧ g.dataRegionAddr < 2 ^ 31 := by
    simp only [Counts.totalBlocks, Counts.dataRegionAddr, Counts.inodeRegionAddr,
      Counts.dataBitmapAddr] at hb ⊢
    omega
  refine ⟨?_, ?_, ?_, ?_, ?_, ?_, ?_, ?_, ?_, ?_⟩ <;>
    simp only [Counts.super, Buffer.FitsInt] <;> omega

theorem Mkfs.bit_firstBit {j : Nat} (hj : j < 32768) : Mkfs.firstBit.bit j = decide (j = 0) := by
  have hset : Mkfs.firstBit = (Buffer.zero : Block).setBit 0 := rfl
  rw [hset, Buffer.bit_setBit (by omega)]
  by_cases h0 : j = 0 <;> simp [h0]

namespace Geometry

variable {g : Geometry} {itable parent : Block}

theorem numInodes_pos (g : Geometry) : 0 < g.numInodes := by
  have hge := g.numInodes_ge
  omega

theorem numData_pos (g : Geometry) : 0 < g.numData := by
  have hge := g.numData_ge
  omega

theorem super_freshImage : Super.decode (g.freshImage itable parent 0) = g.super := by
  obtain ⟨h1, h2, h3⟩ := g.addr_lt g.numInodes_pos g.numData_pos
  rw [freshImage_apply, if_neg (by omega), if_neg (by omega), if_neg (by omega), if_neg (by omega),
    if_pos rfl, Super.decode_encode g.fits_super]

theorem inodeBit_fresh (i : Nat) :
    (g.volume (g.freshImage itable parent)).inodeBit i = decide (i = 0) := by
  obtain ⟨h1, h2, h3⟩ := g.addr_lt g.numInodes_pos g.numData_pos
  have hnum := g.numInodes_le_bitmap
  have hge := g.numInodes_ge
  by_cases hi : i < 32768 * g.inodeBitmapLen
  · rw [inodeBit_volume hi, freshImage_apply]
    have hle : 1 + i / 32768 < g.dataBitmapAddr := by
      unfold Counts.dataBitmapAddr
      omega
    rw [if_neg (by omega), if_neg (by omega), if_neg (by omega)]
    by_cases hfirst : i < 32768
    · rw [if_pos (by omega), Mkfs.bit_firstBit (by omega), Nat.mod_eq_of_lt hfirst]
    · rw [if_neg (by omega), if_neg (by omega), Buffer.bit_zero]
      simpa using (show i ≠ 0 by omega)
  · have h0 : i ≠ 0 := by omega
    simp [volume, hi, h0]

theorem dataBit_fresh (k : Nat) :
    (g.volume (g.freshImage itable parent)).dataBit k = decide (k = 0) := by
  obtain ⟨h1, h2, h3⟩ := g.addr_lt g.numInodes_pos g.numData_pos
  have hnum := g.numData_le_bitmap
  have hge := g.numData_ge
  by_cases hk : k < 32768 * g.dataBitmapLen
  · rw [dataBit_volume hk, freshImage_apply]
    have hle : g.dataBitmapAddr + k / 32768 < g.inodeRegionAddr := by
      unfold Counts.inodeRegionAddr
      omega
    rw [if_neg (by omega), if_neg (by omega)]
    by_cases hfirst : k < 32768
    · rw [if_pos (by omega), Mkfs.bit_firstBit (by omega), Nat.mod_eq_of_lt hfirst]
    · rw [if_neg (by omega), if_neg (by omega), if_neg (by omega), Buffer.bit_zero]
      simpa using (show k ≠ 0 by omega)
  · have h0 : k ≠ 0 := by omega
    simp [volume, hk, h0]

theorem inode_fresh : (g.volume (g.freshImage itable parent)).inode 0 =
    { type := ufsDirectory
      size := 64
      direct := fun k => if k.val = 0 then g.dataRegionAddr else 2 ^ 32 - 1 } := by
  obtain ⟨h1, h2, h3⟩ := g.addr_lt g.numInodes_pos g.numData_pos
  have hnum := g.numInodes_le_region
  have hge := g.numInodes_ge
  have hb := g.bounds
  have haddr : Buffer.unsigned g.super.dataRegionAddr = g.dataRegionAddr :=
    Buffer.unsigned_ofNat (by unfold Counts.totalBlocks at hb; omega)
  rw [inode_volume (by omega), freshImage_apply, if_neg (by omega), if_pos (by omega), Mkfs.rootInode,
    haddr, Block.inode_setInode _ (by omega)]
  · rfl
  · have htype : Buffer.FitsInt ufsDirectory := ⟨by decide, by decide⟩
    have hsize : Buffer.FitsInt 64 := ⟨by decide, by decide⟩
    refine ⟨htype, hsize, fun k => ?_⟩
    dsimp only
    split
    · unfold Counts.totalBlocks at hb
      omega
    · exact Buffer.unsigned_lt _

theorem data_fresh :
    (g.volume (g.freshImage itable parent)).data 0 = Mkfs.rootDirectory parent := by
  have hge := g.numData_ge
  rw [data_volume (by omega), freshImage_apply, if_pos (Nat.add_zero _)]

theorem size_fresh : ((g.volume (g.freshImage itable parent)).inode 0).size = 64 := by
  rw [inode_fresh]

theorem ptr_fresh : ((g.volume (g.freshImage itable parent)).inode 0).ptr 0 = g.dataRegionAddr := by
  rw [inode_fresh]
  simp [Inode.ptr]

theorem entry_fresh {k : Nat} (hk : k < 128) :
    (g.volume (g.freshImage itable parent)).entry g 0 k = Mkfs.rootEntry parent k := by
  have hptr : (g.volume (g.freshImage itable parent)).ptr g 0 0 = 0 := by
    rw [Volume.ptr, ptr_fresh, Nat.sub_self]
  rw [Volume.entry, Nat.div_eq_of_lt hk, Nat.mod_eq_of_lt hk, hptr, data_fresh, Mkfs.rootDirectory,
    Block.entry_ofEntries _ hk]
  have hroot : Buffer.FitsInt 0 := ⟨by decide, by decide⟩
  have hunused : Buffer.FitsInt (-1) := ⟨by decide, by decide⟩
  rcases k with _ | _ | k
  · exact hroot
  · exact hroot
  · exact hunused

theorem slots_fresh : GoodSlots g (g.volume (g.freshImage itable parent)) 0 := by
  have hcount : (g.volume (g.freshImage itable parent)).count 0 = 2 := by
    rw [Volume.count, size_fresh]
    rfl
  have hblocks : (g.volume (g.freshImage itable parent)).blocks 0 = 1 := by
    rw [Volume.blocks, size_fresh]
    rfl
  refine ⟨?_, ?_, ?_, ?_, fun k h2 hk => ?_, fun k hk hlt => ?_⟩
  · rw [size_fresh]
    decide
  · rw [size_fresh]
  · rw [entry_fresh (by omega)]
    exact ⟨Buffer.cStr_toList_strcpy (by decide) (by decide), rfl⟩
  · rw [entry_fresh (by omega)]
    exact ⟨Buffer.cStr_toList_strcpy (by decide) (by decide), le_refl (0 : Int)⟩
  · rw [hcount] at hk
    omega
  · rw [hcount] at hk
    rw [hblocks] at hlt
    obtain ⟨k, rfl⟩ : ∃ m, k = m + 2 := ⟨k - 2, by omega⟩
    rw [entry_fresh (by omega)]
    rfl

theorem node_fresh : (g.volume (g.freshImage itable parent)).node g 0 = some (.dir 0 []) := by
  have hbit : (g.volume (g.freshImage itable parent)).inodeBit 0 = true := by
    rw [inodeBit_fresh]
    rfl
  have hdir : ((g.volume (g.freshImage itable parent)).inode 0).type = ufsDirectory := by
    rw [inode_fresh]
  have hnil : ((g.volume (g.freshImage itable parent)).entries g 0).drop 2 = [] := by
    rw [List.drop_eq_nil_iff, Volume.length_entries, Volume.count, size_fresh]
    decide
  rw [Volume.node_of_dir hbit hdir, hnil, entry_fresh (by decide)]
  rfl

/-- A fresh image is sound: it has the root and nothing else. -/
theorem sound_fresh : Sound g (g.volume (g.freshImage itable parent)) := by
  have hbit : ∀ i, (g.volume (g.freshImage itable parent)).inodeBit i = true ↔ i = 0 := by
    intro i
    rw [inodeBit_fresh, decide_eq_true_eq]
  have hdir : ((g.volume (g.freshImage itable parent)).inode 0).type = ufsDirectory := by
    rw [inode_fresh]
  have hblocks : (g.volume (g.freshImage itable parent)).blocks 0 = 1 := by
    rw [Volume.blocks, size_fresh]
    rfl
  have hown : ∀ {i k}, k ∈ (g.volume (g.freshImage itable parent)).owned g i ↔ i = 0 ∧ k = 0 := by
    intro i k
    rw [Volume.mem_owned, hbit]
    refine and_congr_right ?_
    rintro rfl
    rw [hblocks]
    constructor
    · rintro ⟨x, hx, rfl⟩
      obtain rfl : x = 0 := by omega
      rw [Volume.ptr, ptr_fresh, Nat.sub_self]
    · rintro rfl
      exact ⟨0, by omega, by rw [Volume.ptr, ptr_fresh, Nat.sub_self]⟩
  refine ⟨fun hi => ?_, fun hi => ?_, ⟨fun k => ?_, fun i => ?_, fun hi hj => ?_⟩, ?_⟩
  · have hge := g.numInodes_ge
    rw [(hbit _).mp hi]
    omega
  · obtain rfl := (hbit _).mp hi
    have hd := g.numData_ge
    refine ⟨.inl hdir, ?_, ?_, fun x hx => ?_, fun _ => slots_fresh⟩
    · rw [size_fresh]
      decide
    · rw [size_fresh]
      decide
    · rw [hblocks] at hx
      obtain rfl : x = 0 := by omega
      rw [ptr_fresh]
      unfold Counts.totalBlocks
      omega
  · simp only [dataBit_fresh, decide_eq_true_eq, hown, exists_eq_left]
  · rw [Volume.owned]
    split
    · rename_i hi
      obtain rfl := (hbit _).mp hi
      rw [hblocks]
      exact List.nodup_singleton _
    · exact List.nodup_nil
  · rw [(hown.mp hi).1, (hown.mp hj).1]
  · refine Namespace.isTree_root node_fresh fun i hi => ?_
    rw [Volume.node_eq_none, inodeBit_fresh, decide_eq_false hi]

theorem not_entry_fresh {i j : Nat} {x : Bytes} :
    ¬ ((g.volume (g.freshImage itable parent)).node g).Entry i x j := by
  rintro ⟨p, es, hi, hmem⟩
  have hbit := Volume.bit_of_node hi
  rw [inodeBit_fresh, decide_eq_true_eq] at hbit
  subst hbit
  rw [node_fresh] at hi
  cases hi
  cases hmem

end Geometry

end Gunrock
