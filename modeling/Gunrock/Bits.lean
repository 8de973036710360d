import Gunrock.Layout
import Gunrock.Regions
import Gunrock.Utilities

/-!
# `ds3bits`

The utility that prints both bitmaps of an image.  It reads one and then the other into memory that
is as long as the bitmap of the inodes.

What it does outside of this memory is undefined here, and it stays inside on those images of
`mkfs` whose data bitmap has no more blocks (`Mkfs.bitsFit_iff`).
-/

namespace Gunrock

open Disk LocalFileSystem Text Utilities Wp

namespace Utilities

/-! ## The program -/

/-- `readRegion`, into memory of `length` bytes. -/
def readInto (length : Int) (block : Nat → Int) : Nat → Nat → (Nat → UInt8) → FS (Nat → UInt8)
  | 0, _, bmp => return bmp
  | n + 1, i, bmp => do
    let byteBuf ← readBlock (block i)
    if length < ((i + 1 : Nat) : Int) * ufsBlockSize then
      throw .undefined
    else
      readInto length block n (i + 1) (storeBlock bmp i byteBuf)

/-- The loops that print the memory, `n` bytes of it from the `i`-th on. -/
def printBits (length : Int) (bmp : Nat → UInt8) : Nat → Nat → FS Bytes
  | 0, _ => return []
  | n + 1, i =>
    if length ≤ i then
      throw .undefined
    else do
      return decimal (bmp i).toNat ++ [32] ++ (← printBits length bmp n (i + 1))

/-- `ds3bits`, where `new` gives memory with the contents `bmp`, or throws. -/
def ds3bits (bmp : Nat → UInt8) (argv : List Bytes) : FS Ended :=
  if argv.length ≠ 2 then
    return failed (arg argv 0 ++ bytes ": diskImageFile")
  else do
    let super ← readSuperBlock
    let cout := bytes "Super\n" ++
      bytes "inode_region_addr " ++ decimalInt super.inodeRegionAddr ++ [10] ++
      bytes "inode_region_len " ++ decimalInt super.inodeRegionLen ++ [10] ++
      bytes "num_inodes " ++ decimalInt super.numInodes ++ [10] ++
      bytes "data_region_addr " ++ decimalInt super.dataRegionAddr ++ [10] ++
      bytes "data_region_len " ++ decimalInt super.dataRegionLen ++ [10] ++
      bytes "num_data " ++ decimalInt super.numData ++ [10]
    let length := int32 (super.inodeBitmapLen * ufsBlockSize)
    if length < 0 then
      return { status := none, cout }
    else
      let bmp ← readInto length (fun i => super.inodeBitmapAddr + i) super.inodeBitmapLen.toNat 0
        bmp
      let inodeBits ← printBits length bmp (Buffer.unsigned (super.numInodes.tdiv 8)) 0
      let bmp ← readInto length (fun i => super.dataBitmapAddr + i) super.dataBitmapLen.toNat 0 bmp
      let dataBits ← printBits length bmp (Buffer.unsigned (super.numData.tdiv 8)) 0
      return {
        status := some 0
        cout := cout ++ bytes "\nInode bitmap\n" ++ inodeBits ++
          bytes "\n\nData bitmap\n" ++ dataBits ++ [10] }

/-! ## The loops -/

variable {length : Int} {block : Nat → Int} {bmp : Nat → UInt8} {d : Disk} {s : Super} {n i : Nat}

/-- Where there is room, a region is read as it is by `readInodeBitmap` and `readDataBitmap`. -/
theorem readInto_eq (h : ((i + n : Nat) : Int) * ufsBlockSize ≤ length) :
    readInto length block n i bmp = readRegion block n i bmp := by
  induction n generalizing i bmp with
  | zero => rfl
  | succ n ih =>
      have hroom : ¬ length < ((i + 1 : Nat) : Int) * ufsBlockSize := by
        simp only [ufsBlockSize] at h ⊢
        omega
      simp only [readInto, readRegion, if_neg hroom]
      refine bind_congr fun byteBuf => ih ?_
      rwa [show i + 1 + n = i + (n + 1) by omega]

theorem run_readInto_undefined (hblock : ∀ y, i ≤ y → y < i + n → d.InRange (block y))
    (hi : (i : Int) * ufsBlockSize ≤ length) (h : length < ((i + n : Nat) : Int) * ufsBlockSize) :
    (readInto length block n i bmp).run d = .error .undefined := by
  induction n generalizing i bmp with
  | zero =>
      rw [Nat.add_zero] at h
      omega
  | succ n ih =>
      obtain ⟨byteBuf, d', hread, rfl⟩ := (wp_readBlock (Q := fun _ d' => d' = d)
        (hblock i le_rfl (by omega))).mpr rfl
      rw [readInto, run_bind_of_ok hread]
      split
      · rfl
      · rename_i hroom
        refine ih (fun y h1 h2 => hblock y (by omega) (by omega)) (Int.not_lt.mp hroom) ?_
        rwa [show i + 1 + n = i + (n + 1) by omega]

theorem wp_printBits (h : ((i + n : Nat) : Int) ≤ length) :
    wp (printBits length bmp n i) (fun _ d' => d' = d) d := by
  induction n generalizing i with
  | zero => exact (wp_pure _).mpr rfl
  | succ n ih =>
      rw [printBits, if_neg (by omega), wp_bind]
      refine wp_mono (ih (by omega)) fun text d' hd => ?_
      rwa [wp_pure]

/-! ## The program on a disk -/

/-- What `ds3bits` needs to know of a disk and its superblock: both bitmaps can be read, and have a
bit for each number. -/
structure HasBitmaps (d : Disk) (s : Super) : Prop where
  inRange : d.InRange 0
  super : Super.decode (d.image 0) = s
  inodeBitmap : ∀ i < s.inodeBitmapLen.toNat, d.InRange (s.inodeBitmapAddr + i)
  dataBitmap : ∀ i < s.dataBitmapLen.toNat, d.InRange (s.dataBitmapAddr + i)
  inodeBitmapLen : 0 ≤ s.inodeBitmapLen ∧ s.inodeBitmapLen < 2 ^ 19
  dataBitmapLen : 0 ≤ s.dataBitmapLen
  numInodes : 0 ≤ s.numInodes ∧ s.numInodes < 2 ^ 31 ∧ s.numInodes ≤ 32768 * s.inodeBitmapLen
  numData : 0 ≤ s.numData ∧ s.numData < 2 ^ 31 ∧ s.numData ≤ 32768 * s.dataBitmapLen

/-- `ds3bits` stays inside its memory, whatever that contains. -/
def BitsInBounds (d : Disk) : Prop := ∀ bmp argv, (ds3bits bmp argv).run d ≠ .error .undefined

theorem HasBitmaps.wp_readSuperBlock (h : HasBitmaps d s) :
    wp readSuperBlock (fun super d' => super = s ∧ d' = d) d := by
  rw [readSuperBlock, wp_bind, wp_readBlock h.inRange, wp_pure]
  exact ⟨h.super, rfl⟩

theorem unsigned_tdiv {z : Int} (h0 : 0 ≤ z) (h : z < 2 ^ 31) :
    Buffer.unsigned (z.tdiv 8) = (z / 8).toNat := by
  rw [Int.tdiv_eq_ediv_of_nonneg h0, Buffer.unsigned]
  omega

theorem HasBitmaps.length_eq (h : HasBitmaps d s) :
    int32 (s.inodeBitmapLen * ufsBlockSize) = s.inodeBitmapLen * ufsBlockSize := by
  have hlen := h.inodeBitmapLen
  refine int32_of_fits ⟨?_, ?_⟩
  · simp only [ufsBlockSize]
    omega
  · simp only [ufsBlockSize]
    omega

theorem HasBitmaps.wp_readInodeBits (h : HasBitmaps d s) (bmp : Nat → UInt8) :
    wp (readInto (s.inodeBitmapLen * ufsBlockSize) (fun i => s.inodeBitmapAddr + i)
      s.inodeBitmapLen.toNat 0 bmp) (fun _ d' => d' = d) d := by
  have hlen := h.inodeBitmapLen
  rw [readInto_eq (by simp only [ufsBlockSize]; omega)]
  exact wp_readRegion (fun i _ hi => h.inodeBitmap i (by omega)) fun _ _ _ => rfl

theorem HasBitmaps.wp_printInodeBits (h : HasBitmaps d s) (bmp : Nat → UInt8) :
    wp (printBits (s.inodeBitmapLen * ufsBlockSize) bmp (Buffer.unsigned (s.numInodes.tdiv 8)) 0)
      (fun _ d' => d' = d) d := by
  obtain ⟨h0, hlt, hle⟩ := h.numInodes
  rw [unsigned_tdiv h0 hlt]
  exact wp_printBits (by simp only [ufsBlockSize]; omega)

/-- The data bitmap and its bytes have room if they have no more blocks. -/
theorem HasBitmaps.inBounds (h : HasBitmaps d s) (hle : s.dataBitmapLen ≤ s.inodeBitmapLen) :
    BitsInBounds d := by
  intro bmp argv
  have hlen := h.inodeBitmapLen
  have hdata := h.dataBitmapLen
  have hnum := h.numData
  have hwp : wp (ds3bits bmp argv) (fun _ _ => True) d := by
    rw [ds3bits]
    split
    · exact (wp_pure _).mpr trivial
    rw [wp_bind]
    refine wp_mono h.wp_readSuperBlock ?_
    rintro _ _ ⟨rfl, rfl⟩
    dsimp only
    rw [h.length_eq, if_neg (by simp only [ufsBlockSize]; omega), wp_bind]
    refine wp_mono (h.wp_readInodeBits bmp) ?_
    rintro bmp _ rfl
    rw [wp_bind]
    refine wp_mono (h.wp_printInodeBits bmp) ?_
    rintro inodeBits _ rfl
    rw [wp_bind, readInto_eq (by simp only [ufsBlockSize]; omega)]
    refine wp_readRegion (fun i _ hi => h.dataBitmap i (by omega)) fun bmp _ _ => ?_
    rw [wp_bind, unsigned_tdiv hnum.1 hnum.2.1]
    refine wp_mono (wp_printBits (by simp only [ufsBlockSize]; omega)) ?_
    rintro dataBits _ rfl
    exact (wp_pure _).mpr trivial
  obtain ⟨ended, d', hrun, -⟩ := hwp
  rw [hrun]
  exact fun hc => by cases hc

/-- The first block of the data bitmap that is one too many is stored behind the memory. -/
theorem HasBitmaps.not_inBounds (h : HasBitmaps d s) (hlt : s.inodeBitmapLen < s.dataBitmapLen) :
    ¬ BitsInBounds d := by
  intro hin
  have hlen := h.inodeBitmapLen
  refine hin (fun _ => 0) [[], []] ?_
  obtain ⟨super, d', hsuper, rfl, rfl⟩ := h.wp_readSuperBlock
  obtain ⟨bmp, d₁, hread, rfl⟩ := h.wp_readInodeBits fun _ => 0
  obtain ⟨inodeBits, d₂, hprint, rfl⟩ := h.wp_printInodeBits bmp
  rw [ds3bits, if_neg (by decide), run_bind_of_ok hsuper]
  dsimp only
  rw [h.length_eq, if_neg (by simp only [ufsBlockSize]; omega), run_bind_of_ok hread,
    run_bind_of_ok hprint]
  refine run_bind_error (run_readInto_undefined (fun i _ hi => h.dataBitmap i (by omega)) ?_ ?_)
  · simp only [ufsBlockSize]
    omega
  · simp only [ufsBlockSize]
    omega

end Utilities

/-! ## The images of `mkfs` -/

namespace ImageFile

/-- What is left of `f` when the blocks `ws` have been written and the file is `f'`. -/
structure Written (ws : List (Int × Block)) (f f' : ImageFile) : Prop where
  offset : ∀ w ∈ ws, 0 ≤ int32 (w.1 * ufsBlockSize) ∧
    int32 (w.1 * ufsBlockSize) + ufsBlockSize ≤ f'.size
  size_le : f.size ≤ f'.size
  /-- Blocks are whole, but for what there was at first. -/
  dvd : f.size ≤ ufsBlockSize ∨ (ufsBlockSize : Int) ∣ f.size →
    f'.size ≤ ufsBlockSize ∨ (ufsBlockSize : Int) ∣ f'.size
  other : ∀ b, (∀ w ∈ ws, (int32 (w.1 * ufsBlockSize) / ufsBlockSize).toNat ≠ b) →
    f'.block b = f.block b

theorem dvd_int32_offset (k : Int) : ((ufsBlockSize : Nat) : Int) ∣ int32 (k * ufsBlockSize) := by
  unfold int32 Buffer.signed Buffer.unsigned
  simp only [ufsBlockSize]
  split <;> omega

theorem written_of_pwriteBlock {f f' : ImageFile} {k : Int} {b : Block}
    (h : f.pwriteBlock k b = some f') : Written [(k, b)] f f' := by
  simp only [pwriteBlock] at h
  split at h
  · cases h
  · rename_i hneg
    cases h
    refine ⟨fun w hw => ?_, le_max_left _ _, fun hd => ?_, fun b' hb => ?_⟩
    · rw [List.mem_singleton.mp hw]
      exact ⟨Int.not_lt.mp hneg, le_max_right _ _⟩
    · have hoff := dvd_int32_offset k
      simp only [ufsBlockSize] at hneg hd hoff ⊢
      omega
    · exact Function.update_of_ne (hb _ (List.mem_singleton_self _)).symm _ _

theorem Written.append {ws ws' : List (Int × Block)} {f f' f'' : ImageFile} (h : Written ws f f')
    (h' : Written ws' f' f'') : Written (ws ++ ws') f f'' := by
  refine ⟨fun w hw => ?_, h.size_le.trans h'.size_le, h'.dvd ∘ h.dvd, fun b hb => ?_⟩
  · rcases List.mem_append.mp hw with hw | hw
    · exact ⟨(h.offset w hw).1, (h.offset w hw).2.trans h'.size_le⟩
    · exact h'.offset w hw
  · rw [h'.other b fun w hw => hb w (List.mem_append_right _ hw),
      h.other b fun w hw => hb w (List.mem_append_left _ hw)]

theorem written_of_pwriteBlocks {ws : List (Int × Block)} {f f' : ImageFile}
    (h : f.pwriteBlocks ws = some f') : Written ws f f' := by
  induction ws generalizing f with
  | nil =>
      rw [pwriteBlocks_nil, Option.some.injEq] at h
      subst h
      exact ⟨fun w hw => absurd hw List.not_mem_nil, le_rfl, id, fun _ _ => rfl⟩
  | cons w ws ih =>
      rw [pwriteBlocks_cons] at h
      obtain ⟨f₁, hw, hws⟩ := Option.bind_eq_some_iff.mp h
      exact (written_of_pwriteBlock hw).append (ih hws)

end ImageFile

namespace Mkfs

variable {numInodes numData : Int} {itable parent : Block} {f : ImageFile}

/-- The lengths of the bitmaps and where they are, with and without an overflow. -/
structure Bitmaps (numInodes numData : Int) (s : Super) : Prop where
  fits : s.Fits
  inodeBitmapAddr : s.inodeBitmapAddr = 1
  inodeBitmapLen : 0 < s.inodeBitmapLen ∧ s.inodeBitmapLen ≤ 2 ^ 16
  dataBitmapAddr : s.dataBitmapAddr = 1 + s.inodeBitmapLen
  dataBitmapLen : 0 < s.dataBitmapLen ∧ s.dataBitmapLen ≤ 2 ^ 16
  inodeRegionAddr : s.inodeRegionAddr = s.dataBitmapAddr + s.dataBitmapLen
  dataRegionAddr : -2 ^ 20 < s.dataRegionAddr ∧ s.dataRegionAddr < 2 ^ 20
  numInodes : s.numInodes = numInodes ∧ numInodes ≤ 32768 * s.inodeBitmapLen
  numData : s.numData = numData ∧ numData ≤ 32768 * s.dataBitmapLen

/-- The number of blocks that an `int` counts the bytes of. -/
theorem ceilDiv_int32 (z : Int) : -2 ^ 19 ≤ ceilDiv (int32 z) ufsBlockSize ∧
    ceilDiv (int32 z) ufsBlockSize ≤ 2 ^ 19 := by
  have hfits : Buffer.FitsInt (int32 z) := Buffer.fitsInt_signed (Buffer.unsigned_lt _)
  obtain ⟨hlo, hhi⟩ := hfits
  rcases Int.lt_or_le (int32 z) 0 with hneg | hpos
  · have hquot : (int32 z).tdiv ((ufsBlockSize : Nat) : Int) =
        -(-int32 z / ((ufsBlockSize : Nat) : Int)) := by
      rw [← Int.tdiv_eq_ediv_of_nonneg (by omega), Int.neg_tdiv, Int.neg_neg]
    unfold ceilDiv
    rw [hquot]
    simp only [ufsBlockSize]
    split <;> omega
  · obtain ⟨m, hm⟩ := Int.eq_ofNat_of_zero_le hpos
    rw [hm] at hhi ⊢
    rw [ceilDiv_natCast m (by decide : 0 < ufsBlockSize)]
    simp only [ufsBlockSize]
    omega

theorem bitmaps_layout {n m : Nat} (hn : 32 ≤ n) (hm : 32 ≤ m) (hn' : n < 2 ^ 31)
    (hm' : m < 2 ^ 31) : Bitmaps n m (layout n m) := by
  have htable := ceilDiv_int32 ((n : Int) * 128)
  have hinodes : (layout n m).inodeBitmapLen = ((n + 32767) / 32768 : Nat) :=
    ceilDiv_natCast n (show 0 < 32768 by decide)
  have hdata : (layout n m).dataBitmapLen = ((m + 32767) / 32768 : Nat) :=
    ceilDiv_natCast m (show 0 < 32768 by decide)
  have h1 : (layout n m).inodeBitmapAddr = 1 := rfl
  have h2 : (layout n m).dataBitmapAddr = 1 + (layout n m).inodeBitmapLen := rfl
  have h3 : (layout n m).inodeRegionAddr =
      (layout n m).dataBitmapAddr + (layout n m).dataBitmapLen := rfl
  have h4 : (layout n m).inodeRegionLen = ceilDiv (int32 (n * 128)) ufsBlockSize := rfl
  have h5 : (layout n m).dataRegionAddr =
      (layout n m).inodeRegionAddr + (layout n m).inodeRegionLen := rfl
  have h6 : (layout n m).dataRegionLen = m := rfl
  have h7 : (layout n m).numInodes = n := rfl
  have h8 : (layout n m).numData = m := rfl
  refine ⟨?_, h1, ?_, h2, ?_, h3, ?_, ⟨h7, ?_⟩, ⟨h8, ?_⟩⟩
  · constructor <;> constructor <;> omega
  all_goals omega

/-- An offset that is not negative is that of block 0 for no other block nearby. -/
theorem offset_ne_zero {k : Int} (h : k ≠ 0 ∧ -2 ^ 20 < k ∧ k < 2 ^ 20)
    (hoff : 0 ≤ int32 (k * ufsBlockSize)) :
    (int32 (k * ufsBlockSize) / ufsBlockSize).toNat ≠ 0 := by
  revert hoff
  unfold int32 Buffer.signed Buffer.unsigned
  simp only [ufsBlockSize]
  split <;> omega

/-- The superblock stays, unless the root directory is written over it. -/
theorem offset_of_mem_writes {s : Super} (hb : Bitmaps numInodes numData s)
    (haddr : s.dataRegionAddr ≠ 0)
    (hoff : ∀ w ∈ writes s itable parent, 0 ≤ int32 (w.1 * ufsBlockSize)) :
    ∀ w ∈ writes s itable parent, (int32 (w.1 * ufsBlockSize) / ufsBlockSize).toNat ≠ 0 := by
  have hinodes := hb.inodeBitmapLen
  have hdata := hb.dataBitmapLen
  have h1 := hb.inodeBitmapAddr
  have h2 := hb.dataBitmapAddr
  have h3 := hb.inodeRegionAddr
  have h4 := hb.dataRegionAddr
  intro w hw
  have hnonneg := hoff w hw
  rw [writes] at hw
  rcases List.mem_append.mp hw with hzero | hset
  · obtain ⟨k, hk, rfl⟩ := List.mem_map.mp hzero
    have hk := List.mem_range'_1.mp hk
    -- the loop does not get as far as the first block with a negative offset
    have hlt : k < 2 ^ 19 := by
      by_contra hge
      have hmem : (((2 ^ 19 : Nat) : Int), (Buffer.zero : Block)) ∈ writes s itable parent :=
        List.mem_append_left _ (List.mem_map.mpr ⟨2 ^ 19, List.mem_range'_1.mpr (by omega), rfl⟩)
      exact absurd (hoff _ hmem) (by decide)
    exact offset_ne_zero (by dsimp only; omega) hnonneg
  · simp only [List.mem_cons, List.not_mem_nil, or_false] at hset
    rcases hset with rfl | rfl | rfl | rfl
    · exact offset_ne_zero (by dsimp only; omega) hnonneg
    · exact offset_ne_zero (by dsimp only; omega) hnonneg
    · exact offset_ne_zero (by dsimp only; omega) hnonneg
    · exact offset_ne_zero ⟨haddr, h4⟩ hnonneg

theorem inodeTable_mem_writes (s : Super) (itable parent : Block) :
    (s.inodeRegionAddr, rootInode s itable) ∈ writes s itable parent :=
  List.mem_append_right _ (by simp)

/-- What is sure of the file: its superblock, and that the inode table begins in it. -/
theorem file_of_mkfs (h : mkfs numInodes numData itable parent = some f)
    (hb : Bitmaps numInodes numData (layout numInodes numData))
    (haddr : (layout numInodes numData).dataRegionAddr ≠ 0) :
    Super.decode (f.block 0) = layout numInodes numData ∧ 4096 ∣ f.size ∧
      4096 * ((layout numInodes numData).inodeRegionAddr + 1) ≤ f.size := by
  obtain ⟨c, rfl, rfl, hi32, hd32⟩ := ge_of_mkfs h
  rw [mkfs_eq_pwriteBlocks, if_neg (by omega)] at h
  have hw := ImageFile.written_of_pwriteBlocks h
  have hblock := hw.other 0 (offset_of_mem_writes hb haddr fun w hw' => (hw.offset w hw').1)
  dsimp only at hblock
  rw [Function.update_self] at hblock
  have htable := (hw.offset _ (inodeTable_mem_writes _ itable parent)).2
  have hinodes := hb.inodeBitmapLen
  have hdata := hb.dataBitmapLen
  have h1 := hb.inodeBitmapAddr
  have h2 := hb.dataBitmapAddr
  have h3 := hb.inodeRegionAddr
  rw [int32_offset (by omega) (by omega)] at htable
  have hdvd := hw.dvd (.inl (show (40 : Int) ≤ ufsBlockSize by decide))
  simp only [ufsBlockSize] at htable hdvd
  refine ⟨?_, hdvd.resolve_left (by omega), by omega⟩
  rw [hblock, Super.decode_encode hb.fits]

/-- The disk that is opened on an image of `mkfs` has its bitmaps, be the rest as it may. -/
theorem hasBitmaps (h : mkfs numInodes numData itable parent = some f) (hsize : f.size < 2 ^ 31)
    (hi : numInodes < 2 ^ 31) (hd : numData < 2 ^ 31)
    (haddr : (layout numInodes numData).dataRegionAddr ≠ 0) :
    ∃ d, Disk.new f.size f.block = some d ∧ HasBitmaps d (layout numInodes numData) := by
  obtain ⟨c, rfl, rfl, hi32, hd32⟩ := ge_of_mkfs h
  have hb := bitmaps_layout hi32 hd32 (by omega) (by omega)
  obtain ⟨hsuper, hdvd, htable⟩ := file_of_mkfs h hb haddr
  have hinodes := hb.inodeBitmapLen
  have hdata := hb.dataBitmapLen
  have h1 := hb.inodeBitmapAddr
  have h2 := hb.dataBitmapAddr
  have h3 := hb.inodeRegionAddr
  have hfits : int32 f.size = f.size := int32_of_fits ⟨by omega, hsize⟩
  have hrem : (int32 f.size).tmod ((ufsBlockSize : Nat) : Int) = 0 := by
    rw [hfits]
    exact Int.tmod_eq_zero_of_dvd hdvd
  have hquot : (int32 f.size).tdiv ((ufsBlockSize : Nat) : Int) = f.size / 4096 := by
    rw [hfits]
    exact Int.tdiv_eq_ediv_of_nonneg (by omega)
  refine ⟨_, by rw [Disk.new, if_neg (not_not.mpr hrem)], ?_⟩
  have hrange : ∀ b : Int, 0 ≤ b → b < (layout c.numInodes c.numData).inodeRegionAddr →
      b < (int32 f.size).tdiv ((ufsBlockSize : Nat) : Int) := by
    intro b _ hb
    rw [hquot]
    omega
  refine ⟨⟨le_rfl, hrange 0 (by omega) (by omega)⟩, hsuper,
    fun i hi => ⟨by omega, hrange _ (by omega) (by omega)⟩,
    fun i hi => ⟨by omega, hrange _ (by omega) (by omega)⟩, by omega, by omega, ?_, ?_⟩
  · have hnum := hb.numInodes
    omega
  · have hnum := hb.numData
    omega

/-- The last block that is written is the root directory, whatever was on the stack before. -/
theorem exists_mkfs (h : mkfs numInodes numData itable parent = some f)
    (haddr : (layout numInodes numData).dataRegionAddr = 0) (parent' : Block) :
    ∃ f', mkfs numInodes numData itable parent' = some f' ∧ f'.size = f.size ∧
      f'.block 0 = rootDirectory parent' ∧ 4096 ≤ f'.size := by
  rw [mkfs] at h ⊢
  split at h
  · cases h
  · rename_i hge
    simp only [Option.bind_eq_bind, Option.bind_eq_some_iff] at h
    obtain ⟨f₁, h₁, f₂, h₂, f₃, h₃, f₄, h₄, h₅⟩ := h
    have hzero : ¬ int32 (0 * ufsBlockSize) < 0 := by decide
    rw [if_neg hge]
    simp only [Option.bind_eq_bind, h₁, h₂, h₃, h₄, Option.bind_some]
    rw [haddr] at h₅ ⊢
    simp only [ImageFile.pwriteBlock, if_neg hzero, Option.some.injEq] at h₅ ⊢
    refine ⟨_, rfl, ?_, ?_, ?_⟩
    · rw [← h₅]
    · exact Function.update_self (f := f₄.block) 0 (rootDirectory parent')
    · exact le_max_right _ _

/-- A superblock in whose place there is a root directory: it says that there is no bitmap, and
that there are inodes. -/
theorem not_bitsInBounds_rootDirectory {d : Disk} (h0 : d.InRange 0)
    (hd : d.image 0 = rootDirectory Buffer.zero) : ¬ BitsInBounds d := by
  intro hin
  refine hin (fun _ => 0) [[], []] ?_
  have hsuper : wp readSuperBlock (fun super d' =>
      super = Super.decode (rootDirectory Buffer.zero) ∧ d' = d) d := by
    rw [readSuperBlock, wp_bind, wp_readBlock h0, wp_pure]
    exact ⟨congrArg Super.decode hd, rfl⟩
  have hlen : (Super.decode (rootDirectory Buffer.zero)).inodeBitmapLen = 0 := by decide
  have hnum : (Super.decode (rootDirectory Buffer.zero)).numInodes = 11822 := by decide
  obtain ⟨super, d', hread, rfl, rfl⟩ := hsuper
  rw [ds3bits, if_neg (by decide), run_bind_of_ok hread]
  dsimp only
  rw [hlen, hnum]
  rfl

/-- For these arguments, `ds3bits` stays inside its memory on every image that `mkfs` makes. -/
def BitsFit (numInodes numData : Int) : Prop :=
  ∀ itable parent f, mkfs numInodes numData itable parent = some f → f.size < 2 ^ 31 →
    ∃ d, Disk.new f.size f.block = some d ∧ BitsInBounds d

/-- `ds3bits` stays inside its memory just when the data bitmap has no more blocks than that of the
inodes and the root directory is not written over the superblock. -/
theorem bitsFit_iff (h : mkfs numInodes numData itable parent = some f) (hsize : f.size < 2 ^ 31)
    (hi : numInodes < 2 ^ 31) (hd : numData < 2 ^ 31) :
    BitsFit numInodes numData ↔ (layout numInodes numData).dataRegionAddr ≠ 0 ∧
      (layout numInodes numData).dataBitmapLen ≤ (layout numInodes numData).inodeBitmapLen := by
  constructor
  · intro hfit
    have haddr : (layout numInodes numData).dataRegionAddr ≠ 0 := by
      intro h0
      obtain ⟨f', hf', hsize', hblock, hge⟩ := exists_mkfs h h0 Buffer.zero
      obtain ⟨d, hnew, hin⟩ := hfit _ _ f' hf' (by omega)
      rw [Disk.new] at hnew
      split at hnew
      · cases hnew
      · cases hnew
        refine not_bitsInBounds_rootDirectory ⟨le_rfl, ?_⟩ hblock hin
        rw [Disk.numberOfBlocks]
        dsimp only
        rw [int32_of_fits ⟨by omega, by omega⟩, Int.tdiv_eq_ediv_of_nonneg (by omega)]
        simp only [ufsBlockSize]
        omega
    obtain ⟨d, hnew, hbits⟩ := hasBitmaps h hsize hi hd haddr
    obtain ⟨d', hnew', hin⟩ := hfit itable parent f h hsize
    rw [hnew] at hnew'
    cases hnew'
    exact ⟨haddr, Int.not_lt.mp fun hlt => hbits.not_inBounds hlt hin⟩
  · rintro ⟨haddr, hle⟩ itable parent f h hsize
    obtain ⟨d, hnew, hbits⟩ := hasBitmaps h hsize hi hd haddr
    exact ⟨d, hnew, hbits.inBounds hle⟩

theorem bitsFit_ordinary : BitsFit 32 32 ↔ (layout 32 32).dataRegionAddr ≠ 0 ∧
    (layout 32 32).dataBitmapLen ≤ (layout 32 32).inodeBitmapLen :=
  bitsFit_iff mkfs_ordinary (by decide) (by decide) (by decide)

/-- With 32 inodes and one data block more than a block of the bitmap has bits. -/
theorem not_bitsFit : ¬ BitsFit 32 32769 := by
  intro hfit
  have hf : mkfs 32 32769 Buffer.zero Buffer.zero = _ :=
    mkfs_counts (c := ⟨32, 32769⟩) (by decide) (by decide) (by decide) (by decide)
  obtain ⟨d, hnew, hbits⟩ := hasBitmaps hf (by decide) (by decide) (by decide) (by decide)
  obtain ⟨d', hnew', hin⟩ := hfit _ _ _ hf (by decide)
  rw [hnew] at hnew'
  cases hnew'
  exact hbits.not_inBounds (by decide) hin

end Mkfs

end Gunrock
