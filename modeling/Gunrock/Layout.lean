import Gunrock.Formatted

/-!
# The layout and the disk

What `mkfs` and the `Disk` that is opened on its file have to agree on: where the regions
are, where each block is written, and how many blocks there are.

Both keep byte offsets in an `int`, so they agree on images of fewer than `2 ^ 31` bytes and
on no others that `mkfs` accepts (`Mkfs.agrees_iff`).
-/

namespace Gunrock

/-! ## Regions -/

namespace Super

variable (s : Super)

/-- First block and length of each region, in the order of the image. -/
def regions : List (Int × Int) :=
  [(0, 1), (s.inodeBitmapAddr, s.inodeBitmapLen), (s.dataBitmapAddr, s.dataBitmapLen),
    (s.inodeRegionAddr, s.inodeRegionLen), (s.dataRegionAddr, s.dataRegionLen)]

/-- Block `b` is in the region `r`. -/
def In (r : Int × Int) (b : Int) : Prop := r.1 ≤ b ∧ b < r.1 + r.2

/-- The superblock is block 0, or it names `b` in one of the other regions. -/
def Names (b : Int) : Prop := ∃ r ∈ s.regions, In r b

theorem names_iff {b : Int} : s.Names b ↔ b = 0 ∨ s.InRegion b := by
  have h0 : In (0, 1) b ↔ b = 0 := by
    unfold In
    omega
  simp only [Names, regions, List.mem_cons, List.not_mem_nil, or_false, exists_eq_or_imp,
    exists_eq_left, h0]
  rfl

/-- Regions that follow each other, and are not empty, have no block in common. -/
theorem disjoint_of_isChain {rs : List (Int × Int)} (hpos : ∀ r ∈ rs, 0 < r.2)
    (h : rs.IsChain fun r r' => r'.1 = r.1 + r.2) :
    rs.Pairwise fun r r' => ∀ b, In r b → ¬ In r' b := by
  -- a region starts where the one before ends, or behind that
  have hle : rs.Pairwise fun r r' => r.1 + r.2 ≤ r'.1 := by
    induction rs with
    | nil => exact List.Pairwise.nil
    | cons r rs ih =>
        have ih := ih (fun r' hr' => hpos r' (List.mem_cons_of_mem _ hr')) h.of_cons
        refine List.pairwise_cons.mpr ⟨fun r' hr' => ?_, ih⟩
        cases rs with
        | nil => cases hr'
        | cons q rs =>
            have hq : q.1 = r.1 + r.2 := (List.isChain_cons_cons.mp h).1
            have hqpos := hpos q (by simp)
            rcases List.mem_cons.mp hr' with rfl | hr'
            · omega
            · have := (List.pairwise_cons.mp ih).1 r' hr'
              omega
  refine hle.imp fun {r r'} hrr' b hb hb' => ?_
  unfold In at hb hb'
  omega

end Super

/-- The regions of a layout that was computed without overflow. -/
theorem Counts.regions_super (c : Counts) (hi : 0 < c.numInodes) (hd : 0 < c.numData) :
    (c.super.regions.IsChain fun r r' => r'.1 = r.1 + r.2) ∧ ∀ r ∈ c.super.regions, 0 < r.2 := by
  constructor
  · simp only [Super.regions, Counts.super, List.isChain_cons_cons, List.IsChain.singleton,
      Counts.dataRegionAddr, Counts.inodeRegionAddr, Counts.dataBitmapAddr, Int.natCast_add]
    exact ⟨rfl, rfl, trivial, trivial, trivial⟩
  · simp only [Super.regions, Counts.super, List.mem_cons, List.not_mem_nil, or_false,
      forall_eq_or_imp, forall_eq, Counts.inodeBitmapLen, Counts.dataBitmapLen,
      Counts.inodeRegionLen]
    omega

/-! ## What is written where -/

namespace ImageFile

/-- One `pwrite` after the other. -/
def pwriteBlocks (ws : List (Int × Block)) (f : ImageFile) : Option ImageFile :=
  ws.foldlM (fun f w => f.pwriteBlock w.1 w.2) f

@[simp] theorem pwriteBlocks_nil (f : ImageFile) : f.pwriteBlocks [] = some f := rfl

@[simp] theorem pwriteBlocks_cons (w : Int × Block) (ws : List (Int × Block)) (f : ImageFile) :
    f.pwriteBlocks (w :: ws) = (f.pwriteBlock w.1 w.2).bind fun f' => f'.pwriteBlocks ws := rfl

theorem pwriteBlocks_append (ws ws' : List (Int × Block)) (f : ImageFile) :
    f.pwriteBlocks (ws ++ ws') = (f.pwriteBlocks ws).bind (pwriteBlocks ws') := by
  rw [pwriteBlocks, List.foldlM_append]
  rfl

theorem zeroBlocks_eq_pwriteBlocks (n i : Nat) (f : ImageFile) : f.zeroBlocks n i =
    f.pwriteBlocks ((List.range' i n).map fun k : Nat => ((k : Int), Buffer.zero)) := by
  induction n generalizing i f with
  | zero => rfl
  | succ n ih =>
      rw [zeroBlocks, List.range'_succ, List.map_cons, pwriteBlocks_cons, Option.bind_eq_bind]
      congr 1
      funext f'
      exact ih (i + 1) f'

end ImageFile

namespace Mkfs

/-- The blocks `mkfs` writes after the superblock, in order. -/
def writes (s : Super) (itable parent : Block) : List (Int × Block) :=
  ((List.range' 1 (totalBlocks s - 1).toNat).map fun k : Nat => ((k : Int), Buffer.zero)) ++
    [(s.inodeBitmapAddr, firstBit), (s.dataBitmapAddr, firstBit),
      (s.inodeRegionAddr, rootInode s itable), (s.dataRegionAddr, rootDirectory parent)]

variable {numInodes numData : Int} {itable parent : Block} {f : ImageFile}

/-- `mkfs` writes the superblock and then these. -/
theorem mkfs_eq_pwriteBlocks (numInodes numData : Int) (itable parent : Block) :
    mkfs numInodes numData itable parent = if numInodes < 32 ∨ numData < 32 then none
      else ImageFile.pwriteBlocks (writes (layout numInodes numData) itable parent)
        ⟨40, Function.update (fun _ => Buffer.zero) 0 (layout numInodes numData).encode⟩ := by
  rw [mkfs]
  split
  · rfl
  · simp only [ImageFile.zeroBlocks_eq_pwriteBlocks, writes, ImageFile.pwriteBlocks_append,
      Option.bind_eq_bind]
    congr 1
    funext f
    simp

/-! ## Agreement -/

/-- The file `f` of `mkfs` has the superblock `s`, which describes a proper layout for the
counts, and a disk opened on `f` sees the blocks that `s` describes. -/
structure Agrees (numInodes numData : Int) (itable parent : Block) (f : ImageFile) (s : Super) :
    Prop where
  super : Super.decode (f.block 0) = s
  consecutive : s.regions.IsChain fun r r' => r'.1 = r.1 + r.2
  disjoint : s.regions.Pairwise fun r r' => ∀ b, Super.In r b → ¬ Super.In r' b
  length_pos : ∀ r ∈ s.regions, 0 < r.2
  inodeBitmap : numInodes ≤ 32768 * s.inodeBitmapLen
  dataBitmap : numData ≤ 32768 * s.dataBitmapLen
  inodeRegion : numInodes ≤ 32 * s.inodeRegionLen
  dataRegion : s.dataRegionLen = numData
  /-- Each block is written where it belongs. -/
  offset : ∀ w ∈ writes s itable parent, int32 (w.1 * ufsBlockSize) = 4096 * w.1
  disk : ∃ d, Disk.new f.size f.block = some d ∧ d.numberOfBlocks =
      s.inodeBitmapLen + s.dataBitmapLen + s.inodeRegionLen + s.dataRegionLen + 1 ∧
    ∀ b, s.Names b → d.InRange b ∧ int32 (b * ufsBlockSize) = 4096 * b

theorem int32_offset {b : Int} (h0 : 0 ≤ b) (hb : b < 2 ^ 19) :
    int32 (b * ufsBlockSize) = 4096 * b := by
  have hfits : Buffer.FitsInt (b * ((ufsBlockSize : Nat) : Int)) := by
    constructor <;> simp only [ufsBlockSize] <;> omega
  rw [int32_of_fits hfits, Int.mul_comm]
  rfl

/-- Neither sum of `mkfs` overflows when the image has fewer than `2 ^ 31` bytes. -/
theorem noOverflow_counts {c : Counts} (h : c.totalBlocks * 4096 < 2 ^ 31) :
    NoOverflow c.numInodes c.numData := by
  simp only [Counts.totalBlocks, Counts.dataRegionAddr, Counts.inodeRegionAddr,
    Counts.dataBitmapAddr, Counts.inodeRegionLen] at h
  have hbytes : Buffer.FitsInt (c.numInodes * 128) := by
    constructor <;> omega
  refine ⟨hbytes, ?_⟩
  rw [layout_eq c hbytes]
  simp only [Counts.super, Counts.inodeRegionLen]
  constructor <;> omega

theorem tdiv_nonpos {z : Int} (h : z ≤ 0) : z.tdiv ((ufsBlockSize : Nat) : Int) ≤ 0 := by
  have hquot : 0 ≤ (-z).tdiv ((ufsBlockSize : Nat) : Int) :=
    Int.tdiv_nonneg (by omega) (by decide)
  rw [Int.neg_tdiv] at hquot
  omega

/-- The inode table has room for all inodes only if its bytes were counted without overflow. -/
theorem numInodes_lt {n : Nat} (h : (n : Int) ≤ 32 * (layout n numData).inodeRegionLen) :
    n < 2 ^ 24 := by
  have hlen : (layout n numData).inodeRegionLen = ceilDiv (int32 (n * 128)) ufsBlockSize := rfl
  have hlt : int32 ((n : Int) * 128) < 2 ^ 31 := (Buffer.fitsInt_signed (Buffer.unsigned_lt _)).2
  rw [hlen] at h
  rcases Int.lt_or_le (int32 (n * 128)) 0 with hneg | hpos
  · -- a negative number of bytes makes for at most one block
    have hquot := tdiv_nonpos (Int.le_of_lt hneg)
    have hone : ceilDiv (int32 (n * 128)) ((ufsBlockSize : Nat) : Int) ≤ 1 := by
      unfold ceilDiv
      split <;> omega
    omega
  · obtain ⟨m, hm⟩ := Int.eq_ofNat_of_zero_le hpos
    rw [hm, ceilDiv_natCast m (by decide : 0 < ufsBlockSize)] at h
    have hle : n ≤ 2 ^ 24 := by
      simp only [ufsBlockSize] at h
      omega
    rcases Nat.lt_or_eq_of_le hle with hlt | rfl
    · exact hlt
    · exact absurd hpos (by decide)

/-- A disk has fewer than `2 ^ 19` blocks, whatever the size of the file. -/
theorem numberOfBlocks_lt {size : Int} {im : Nat → Block} {d : Disk}
    (h : Disk.new size im = some d) : d.numberOfBlocks < 2 ^ 19 := by
  have hlt : int32 size < 2 ^ 31 := (Buffer.fitsInt_signed (Buffer.unsigned_lt _)).2
  have hsize : d.imageFileSize = int32 size := by
    rw [Disk.new] at h
    split at h
    · cases h
    · cases h
      rfl
  rw [Disk.numberOfBlocks, hsize]
  rcases Int.lt_or_le (int32 size) 0 with hneg | hpos
  · have hquot := tdiv_nonpos (Int.le_of_lt hneg)
    omega
  · rw [Int.tdiv_eq_ediv_of_nonneg hpos]
    simp only [ufsBlockSize]
    omega

/-- All that is written is a block of the image. -/
theorem writes_lt (g : Geometry) : ∀ w ∈ writes g.super itable parent,
    0 ≤ w.1 ∧ w.1 < g.totalBlocks := by
  intro w hw
  have hno := noOverflow_counts g.totalBlocks_lt
  obtain ⟨-, htotal⟩ := layout_counts hno
  obtain ⟨h1, h2, h3⟩ := g.addr_lt g.numInodes_pos g.numData_pos
  have h4 : g.dataRegionAddr + g.numData = g.totalBlocks := rfl
  have hpos := g.numData_pos
  rw [writes, htotal] at hw
  rcases List.mem_append.mp hw with hw | hw
  · obtain ⟨k, hk, rfl⟩ := List.mem_map.mp hw
    have hk := List.mem_range'_1.mp hk
    dsimp only
    omega
  · simp only [List.mem_cons, List.not_mem_nil, or_false, Counts.super] at hw
    rcases hw with rfl | rfl | rfl | rfl <;> dsimp only <;> omega

/-- The file that is written for a geometry. -/
theorem agrees_geometry (g : Geometry) (itable parent : Block) :
    Agrees g.numInodes g.numData itable parent
      ⟨g.totalBlocks * 4096, g.freshImage itable parent⟩ g.super := by
  have hb := g.bounds
  have hi := g.numInodes_le_bitmap
  have hd := g.numData_le_bitmap
  have hr := g.numInodes_le_region
  obtain ⟨hchain, hpos⟩ := g.regions_super g.numInodes_pos g.numData_pos
  refine ⟨Geometry.super_freshImage, hchain, Super.disjoint_of_isChain hpos hchain, hpos, ?_, ?_, ?_,
    rfl, fun w hw => ?_, g.bootDisk _, g.new_eq_some _, ?_, fun b hn => ?_⟩
  · simp only [Counts.super]
    omega
  · simp only [Counts.super]
    omega
  · simp only [Counts.super]
    omega
  · obtain ⟨h0, hlt⟩ := writes_lt g w hw
    exact int32_offset h0 (by omega)
  · rw [g.numberOfBlocks_bootDisk]
    simp only [Counts.super, Counts.totalBlocks, Counts.dataRegionAddr, Counts.inodeRegionAddr,
      Counts.dataBitmapAddr]
    omega
  · have hlt : 0 ≤ b ∧ b < g.totalBlocks := by
      have hge := g.numData_ge
      have htotal : g.dataRegionAddr + g.numData = g.totalBlocks := rfl
      rw [Super.names_iff, g.inRegion_iff] at hn
      omega
    refine ⟨⟨hlt.1, ?_⟩, int32_offset hlt.1 (by omega)⟩
    rw [g.numberOfBlocks_bootDisk]
    exact hlt.2

/-- What `mkfs` accepts is a proper image, for a `Disk` too, if and only if it is one of fewer
than `2 ^ 31` bytes. -/
theorem agrees_iff (h : mkfs numInodes numData itable parent = some f) :
    Agrees numInodes numData itable parent f (layout numInodes numData) ↔
      (⟨numInodes.toNat, numData.toNat⟩ : Counts).totalBlocks * 4096 < 2 ^ 31 := by
  obtain ⟨c, rfl, rfl, hi, hd⟩ := ge_of_mkfs h
  rw [Int.toNat_natCast, Int.toNat_natCast]
  change _ ↔ c.totalBlocks * 4096 < 2 ^ 31
  constructor
  · intro ha
    -- the counts are small enough for the layout to be the right one, and the disk counts blocks
    have hlt := numInodes_lt ha.inodeRegion
    have hlayout : layout c.numInodes c.numData = c.super :=
      layout_eq c (by constructor <;> omega)
    obtain ⟨d, hnew, hblocks, -⟩ := ha.disk
    have hmax := numberOfBlocks_lt hnew
    rw [hlayout] at hblocks
    simp only [Counts.super] at hblocks
    simp only [Counts.totalBlocks, Counts.dataRegionAddr, Counts.inodeRegionAddr,
      Counts.dataBitmapAddr]
    omega
  · intro hsize
    have hno := noOverflow_counts hsize
    rw [mkfs_counts hi hd hno (by omega), Option.some.injEq] at h
    rw [← h, (layout_counts hno).1]
    exact agrees_geometry ⟨c, hi, hd, hsize⟩ itable parent

theorem agrees_ordinary :
    Agrees 32 32 Buffer.zero Buffer.zero ordinary (layout 32 32) :=
  (agrees_iff mkfs_ordinary).mpr (by decide)

/-- The counts of the smallest image for which the disk finds a negative size. -/
theorem exists_not_agrees : ∃ f, mkfs 32 524269 Buffer.zero Buffer.zero = some f ∧
    ¬ Agrees 32 524269 Buffer.zero Buffer.zero f (layout 32 524269) := by
  refine ⟨_, mkfs_counts (c := ⟨32, 524269⟩) (by decide) (by decide) (by decide) (by decide),
    fun ha => ?_⟩
  obtain ⟨d, hnew, hblocks, -⟩ := ha.disk
  have hmax := numberOfBlocks_lt hnew
  rw [hblocks] at hmax
  exact absurd hmax (by decide)

end Mkfs

end Gunrock
