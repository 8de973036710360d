import Gunrock.LocalFileSystem
import Gunrock.Mkfs

/-!
# Whole regions

The helpers of `LocalFileSystem.cpp` that read and write a bitmap or the inode table in one
go.  A region is read into memory block by block, and written from there.  Four of the six are
the two loops below, at the address of their region plus the index of the block;
`writeInodeRegion` forgets the index, so that each block goes to the first block of the table
(`LocalFileSystem.regionsInverse_iff`).
-/

namespace Gunrock

namespace LocalFileSystem

open Disk Wp

/-! ## The helpers -/

/-- The memory from `buf` on, with `byteBuf` copied over block `i` of it. -/
def storeBlock (buf : Nat → UInt8) (i : Nat) (byteBuf : Block) : Nat → UInt8 := fun k =>
  if k / ufsBlockSize = i then byteBuf.get (k % ufsBlockSize) else buf k

/-- Block `i` of the memory from `buf` on. -/
def loadBlock (buf : Nat → UInt8) (i : Nat) : Block :=
  Buffer.ofFn fun k => buf (i * ufsBlockSize + k)

/-- Read `n` blocks, from index `i` on, into the memory at `buf`. -/
def readRegion (block : Nat → Int) : Nat → Nat → (Nat → UInt8) → FS (Nat → UInt8)
  | 0, _, buf => return buf
  | n + 1, i, buf => do
    let byteBuf ← readBlock (block i)
    readRegion block n (i + 1) (storeBlock buf i byteBuf)

/-- Write `n` blocks, from index `i` on, from the memory at `buf`. -/
def writeRegion (block : Nat → Int) : Nat → Nat → (Nat → UInt8) → FS PUnit
  | 0, _, _ => return ⟨⟩
  | n + 1, i, buf => do
    writeBlock (block i) (loadBlock buf i)
    writeRegion block n (i + 1) buf

variable (super : Super) (buf : Nat → UInt8)

def readInodeBitmap : FS (Nat → UInt8) :=
  readRegion (fun i => super.inodeBitmapAddr + i) super.inodeBitmapLen.toNat 0 buf

def writeInodeBitmap : FS PUnit :=
  writeRegion (fun i => super.inodeBitmapAddr + i) super.inodeBitmapLen.toNat 0 buf

def readDataBitmap : FS (Nat → UInt8) :=
  readRegion (fun i => super.dataBitmapAddr + i) super.dataBitmapLen.toNat 0 buf

def writeDataBitmap : FS PUnit :=
  writeRegion (fun i => super.dataBitmapAddr + i) super.dataBitmapLen.toNat 0 buf

def readInodeRegion : FS (Nat → UInt8) :=
  readRegion (fun i => super.inodeRegionAddr + i) super.inodeRegionLen.toNat 0 buf

/-- All blocks are written to one address. -/
def writeInodeRegion : FS PUnit :=
  writeRegion (fun _ => super.inodeRegionAddr) super.inodeRegionLen.toNat 0 buf

variable {super buf} {d : Disk} {block : Nat → Int} {n i k : Nat}

/-! ## The loops -/

theorem loadBlock_eq {buf' : Nat → UInt8} :
    loadBlock buf i = loadBlock buf' i ↔ ∀ k, k / 4096 = i → buf k = buf' k := by
  constructor
  · intro h k hk
    have hget := congrArg (fun b : Block => b.get (k % 4096)) h
    have hlt : k % 4096 < ufsBlockSize := Nat.mod_lt _ (by decide)
    simp only [loadBlock, Buffer.get_ofFn_of_lt hlt] at hget
    rwa [show i * ufsBlockSize + k % 4096 = k by simp only [ufsBlockSize]; omega] at hget
  · intro h
    apply Buffer.ext_get
    intro k hk
    rw [loadBlock, loadBlock, Buffer.get_ofFn_of_lt hk, Buffer.get_ofFn_of_lt hk]
    exact h _ (by simp only [ufsBlockSize] at hk ⊢; omega)

/-- The blocks read end up in memory one after the other. -/
theorem wp_readRegion (hblock : ∀ y, i ≤ y → y < i + n → d.InRange (block y))
    {Q : (Nat → UInt8) → Disk → Prop}
    (hQ : ∀ buf', (∀ y, i ≤ y → y < i + n → loadBlock buf' y = d.image (block y).toNat) →
      (∀ k, (k / 4096 < i ∨ i + n ≤ k / 4096) → buf' k = buf k) → Q buf' d) :
    wp (readRegion block n i buf) Q d := by
  induction n generalizing i buf with
  | zero =>
      rw [readRegion, wp_pure]
      exact hQ buf (fun y h1 h2 => by omega) fun _ _ => rfl
  | succ n ih =>
      rw [readRegion, wp_bind, wp_readBlock (hblock i le_rfl (by omega))]
      refine ih (fun y h1 h2 => hblock y (by omega) (by omega)) fun buf' hin hout => ?_
      have hstored : loadBlock (storeBlock buf i (d.image (block i).toNat)) i =
          d.image (block i).toNat := by
        apply Buffer.ext_get
        intro k hk
        have hk : k < 4096 := hk
        rw [loadBlock, Buffer.get_ofFn_of_lt hk, storeBlock, if_pos (by simp only [ufsBlockSize]; omega)]
        congr 1
        simp only [ufsBlockSize]
        omega
      refine hQ buf' (fun y h1 h2 => ?_) fun k hk => ?_
      · rcases Nat.lt_or_eq_of_le h1 with hlt | rfl
        · exact hin y (by omega) (by omega)
        · rw [← hstored, loadBlock_eq]
          exact fun k hk => hout k (by omega)
      · rw [hout k (by omega), storeBlock, if_neg (by simp only [ufsBlockSize]; omega)]

/-- The `n` blocks from index `i` on were written: each block is what was written to it last. -/
structure Stores (block : Nat → Int) (i n : Nat) (buf : Nat → UInt8) (d d' : Disk) : Prop where
  numberOfBlocks : d'.numberOfBlocks = d.numberOfBlocks
  last : ∀ y, i ≤ y → y < i + n → (∀ z, y < z → z < i + n → (block z).toNat ≠ (block y).toNat) →
    d'.image (block y).toNat = loadBlock buf y
  other : ∀ b, (∀ y, i ≤ y → y < i + n → (block y).toNat ≠ b) → d'.image b = d.image b

theorem wp_writeRegion (hblock : ∀ y, i ≤ y → y < i + n → d.InRange (block y))
    {Q : PUnit → Disk → Prop} (hQ : ∀ d', Stores block i n buf d d' → Q ⟨⟩ d') :
    wp (writeRegion block n i buf) Q d := by
  induction n generalizing i d with
  | zero =>
      rw [writeRegion, wp_pure]
      exact hQ d ⟨rfl, fun y h1 h2 => by omega, fun _ _ => rfl⟩
  | succ n ih =>
      rw [writeRegion, wp_bind, wp_writeBlock (hblock i le_rfl (by omega))]
      refine ih (fun y h1 h2 => hblock y (by omega) (by omega)) fun d' hs => hQ d' ?_
      refine ⟨hs.numberOfBlocks, fun y h1 h2 hlast => ?_, fun b hb => ?_⟩
      · rcases Nat.lt_or_eq_of_le h1 with hlt | rfl
        · exact hs.last y (by omega) (by omega) fun z h3 h4 => hlast z h3 (by omega)
        · rw [hs.other _ fun z h3 h4 => hlast z (by omega) (by omega)]
          exact Function.update_self _ _ _
      · rw [hs.other b fun y h1 h2 => hb y (by omega) (by omega)]
        exact Function.update_of_ne (hb i le_rfl (by omega)).symm _ _

/-! ## Round trips -/

/-- After `write`, `read` fills any memory with what was written, and no block outside the
region has changed. -/
def RoundTrips (read : (Nat → UInt8) → FS (Nat → UInt8)) (write : (Nat → UInt8) → FS PUnit)
    (addr len : Int) (buf : Nat → UInt8) (d : Disk) : Prop :=
  ∃ d', (write buf).run d = .ok (⟨⟩, d') ∧
    (∀ old, ∃ buf', (read old).run d' = .ok (buf', d') ∧
      ∀ k : Nat, (k : Int) < len * ufsBlockSize → buf' k = buf k) ∧
    ∀ b : Nat, ¬ (addr ≤ b ∧ b < addr + len) → d'.image b = d.image b

/-- The three regions lie in the image. -/
structure InImage (super : Super) (d : Disk) : Prop where
  inodeBitmap : ∀ i < super.inodeBitmapLen.toNat, d.InRange (super.inodeBitmapAddr + i)
  dataBitmap : ∀ i < super.dataBitmapLen.toNat, d.InRange (super.dataBitmapAddr + i)
  inodeRegion : ∀ i < super.inodeRegionLen.toNat, d.InRange (super.inodeRegionAddr + i)

/-- Each helper that reads undoes the one that writes. -/
structure RegionsInverse (super : Super) (inodeBitmap dataBitmap inodes : Nat → UInt8)
    (d : Disk) : Prop where
  inodeBitmap : RoundTrips (readInodeBitmap super) (writeInodeBitmap super) super.inodeBitmapAddr
    super.inodeBitmapLen inodeBitmap d
  dataBitmap : RoundTrips (readDataBitmap super) (writeDataBitmap super) super.dataBitmapAddr
    super.dataBitmapLen dataBitmap d
  inodeRegion : RoundTrips (readInodeRegion super) (writeInodeRegion super)
    super.inodeRegionAddr super.inodeRegionLen inodes d

/-- A round trip in terms of the blocks that are there after the write. -/
theorem roundTrips_iff {addr len : Int} (hrange : ∀ i < len.toNat, d.InRange (addr + i))
    (hblock : ∀ i < len.toNat, ∃ j < len.toNat, block i = addr + j) {stored : Nat → Block}
    (hstored : ∀ d', Stores block 0 len.toNat buf d d' →
      ∀ i < len.toNat, d'.image (addr + i).toNat = stored i) :
    RoundTrips (readRegion (fun i => addr + i) len.toNat 0) (writeRegion block len.toNat 0)
      addr len buf d ↔ ∀ i < len.toNat, stored i = loadBlock buf i := by
  have hblocks : ∀ y, 0 ≤ y → y < 0 + len.toNat → d.InRange (block y) := by
    intro y _ hy
    obtain ⟨j, hj, hy'⟩ := hblock y (by omega)
    rw [hy']
    exact hrange j hj
  have hwp : wp (writeRegion block len.toNat 0 buf)
      (fun _ d' => Stores block 0 len.toNat buf d d') d := wp_writeRegion hblocks fun _ hs => hs
  obtain ⟨⟨⟩, d', hwrite, hs⟩ := hwp
  have hthere := hstored d' hs
  -- whatever memory it reads into, it reads the blocks that are there
  have hread : ∀ old, ∃ buf', (readRegion (fun i => addr + i) len.toNat 0 old).run d' =
      .ok (buf', d') ∧ ∀ i < len.toNat, loadBlock buf' i = stored i := by
    intro old
    have hrange' : ∀ y : Nat, 0 ≤ y → y < 0 + len.toNat → d'.InRange (addr + y) := by
      intro y _ hy
      have hr := hrange y (by omega)
      exact ⟨hr.1, hs.numberOfBlocks ▸ hr.2⟩
    have hwp : wp (readRegion (fun i => addr + i) len.toNat 0 old) (fun buf' d'' =>
        (∀ i < len.toNat, loadBlock buf' i = stored i) ∧ d'' = d') d' :=
      wp_readRegion hrange' fun buf' hin _ =>
        ⟨fun i hi => (hin i (Nat.zero_le _) (by omega)).trans (hthere i hi), rfl⟩
    obtain ⟨buf', d'', hrun, hload, rfl⟩ := hwp
    exact ⟨buf', hrun, hload⟩
  have hsame : ∀ buf' : Nat → UInt8, (∀ k : Nat, (k : Int) < len * ufsBlockSize → buf' k = buf k) ↔
      ∀ i < len.toNat, loadBlock buf' i = loadBlock buf i := by
    intro buf'
    simp only [loadBlock_eq, ufsBlockSize]
    constructor
    · intro h i hi k hk
      exact h k (by omega)
    · intro h k hk
      exact h (k / 4096) (by omega) k rfl
  constructor
  · rintro ⟨d₁, hwrite₁, hreads, -⟩
    rw [hwrite] at hwrite₁
    cases hwrite₁
    obtain ⟨buf', hrun, hbuf⟩ := hreads buf
    obtain ⟨buf₁, hrun₁, hload⟩ := hread buf
    rw [hrun] at hrun₁
    cases hrun₁
    intro i hi
    rw [← hload i hi, (hsame _).mp hbuf i hi]
  · intro h
    refine ⟨d', hwrite, fun old => ?_, fun b hb => hs.other b fun y _ hy heq => hb ?_⟩
    · obtain ⟨buf', hrun, hload⟩ := hread old
      exact ⟨buf', hrun, (hsame _).mpr fun i hi => (hload i hi).trans (h i hi)⟩
    · obtain ⟨j, hj, hy'⟩ := hblock y (by omega)
      have hr := hrange j hj
      have h0 := hr.1
      rw [hy'] at heq
      omega

/-- With the index added, what is written is there. -/
theorem roundTrips_region {addr len : Int} (hrange : ∀ i < len.toNat, d.InRange (addr + i)) :
    RoundTrips (readRegion (fun i => addr + i) len.toNat 0)
      (writeRegion (fun i => addr + i) len.toNat 0) addr len buf d := by
  have hstored : ∀ d', Stores (fun i => addr + i) 0 len.toNat buf d d' →
      ∀ i < len.toNat, d'.image (addr + i).toNat = loadBlock buf i := by
    intro d' hs i hi
    refine hs.last i (Nat.zero_le _) (by omega) fun z h1 h2 heq => ?_
    have h0 := (hrange i hi).1
    have hz := (hrange z (by omega)).1
    omega
  exact (roundTrips_iff hrange (fun i hi => ⟨i, hi, rfl⟩) hstored).mpr fun _ _ => rfl

/-- Only the first block of the table is written, and its last contents are those of the last
block of the buffer. -/
theorem roundTrips_inodeRegion_iff {inodes : Nat → UInt8}
    (h : ∀ i < super.inodeRegionLen.toNat, d.InRange (super.inodeRegionAddr + i)) :
    RoundTrips (readInodeRegion super) (writeInodeRegion super) super.inodeRegionAddr
      super.inodeRegionLen inodes d ↔ (1 < super.inodeRegionLen →
        loadBlock inodes 0 = loadBlock inodes (super.inodeRegionLen.toNat - 1) ∧
        ∀ i : Nat, 0 < i → (i : Int) < super.inodeRegionLen →
          d.image (super.inodeRegionAddr + i).toNat = loadBlock inodes i) := by
  have hstored : ∀ d', Stores (fun _ => super.inodeRegionAddr) 0 super.inodeRegionLen.toNat inodes
      d d' → ∀ i < super.inodeRegionLen.toNat, d'.image (super.inodeRegionAddr + i).toNat =
        if i = 0 then loadBlock inodes (super.inodeRegionLen.toNat - 1)
        else d.image (super.inodeRegionAddr + i).toNat := by
    intro d' hs i hi
    split
    · rename_i h0
      subst h0
      simpa using hs.last (super.inodeRegionLen.toNat - 1) (Nat.zero_le _) (by omega)
        fun z h1 h2 => by omega
    · have h0 := (h 0 (by omega)).1
      exact hs.other _ fun y _ _ heq => by omega
  refine (roundTrips_iff h (fun i hi => ⟨0, by omega, by simp⟩) hstored).trans ⟨?_, ?_⟩
  · intro hall hlen
    refine ⟨(hall 0 (by omega)).symm, fun i h0 hi => ?_⟩
    have hblock := hall i (by omega)
    rwa [if_neg (by omega)] at hblock
  · intro hcond i hi
    split
    · rename_i h0
      subst h0
      by_cases hlen : 1 < super.inodeRegionLen
      · exact (hcond hlen).1.symm
      · rw [show super.inodeRegionLen.toNat - 1 = 0 by omega]
    · exact (hcond (by omega)).2 i (by omega) (by omega)

/-- The helpers are inverse just when the table has a single block at most, or the block that is
written to its beginning last is the first one, and the others are there already. -/
theorem regionsInverse_iff {inodeBitmap dataBitmap inodes : Nat → UInt8} (h : InImage super d) :
    RegionsInverse super inodeBitmap dataBitmap inodes d ↔ (1 < super.inodeRegionLen →
      loadBlock inodes 0 = loadBlock inodes (super.inodeRegionLen.toNat - 1) ∧
      ∀ i : Nat, 0 < i → (i : Int) < super.inodeRegionLen →
        d.image (super.inodeRegionAddr + i).toNat = loadBlock inodes i) := by
  rw [← roundTrips_inodeRegion_iff h.inodeRegion]
  exact ⟨fun hinv => hinv.inodeRegion, fun htable =>
    ⟨roundTrips_region h.inodeBitmap, roundTrips_region h.dataBitmap, htable⟩⟩

/-- A disk of `n` empty blocks. -/
def emptyDisk (n : Int) : Disk where
  imageFileSize := n * ufsBlockSize
  image := fun _ => Buffer.zero
  isInTransaction := false
  undoLog := []
  written := []

/-- With 32 inodes the table is one block; a bitmap for 32769 data blocks is two. -/
theorem regionsInverse_small : RegionsInverse (Mkfs.layout 32 32769) (fun _ => 1)
    (fun k => if k < 4096 then 255 else 1) (fun _ => 1) (emptyDisk 32774) :=
  (regionsInverse_iff ⟨by decide, by decide, by decide⟩).mpr
    fun hlen => absurd hlen (by decide)

/-- With 64 inodes it is two, and the second block of the buffer ends up in the first one. -/
theorem not_regionsInverse : ¬ RegionsInverse (Mkfs.layout 64 32) (fun _ => 0) (fun _ => 0)
    (fun k => if k < 4096 then 0 else 1) (emptyDisk 37) := by
  intro h
  have hcond := (roundTrips_inodeRegion_iff (by decide)).mp h.inodeRegion (by decide)
  have hbyte := congrArg (fun b : Block => b.get 0) hcond.1
  exact absurd hbyte (by decide)

end LocalFileSystem

end Gunrock
