import Gunrock.Disk

/-!
# Making an image

`mkfs.c`: the layout of an image, and the file that is written.

The arithmetic is that of 32-bit `int`s.  Two variables of `main` are written to the image
without having been set completely, the inode block `itable` and the directory block
`parent`; what the stack holds there is an argument of the model.
-/

namespace Gunrock

/-- A file, as far as it consists of whole blocks. -/
structure ImageFile where
  /-- In bytes. -/
  size : Int
  block : Nat → Block

namespace ImageFile

/-- `pwrite` of a block at `k * UFS_BLOCK_SIZE`, which fails at a negative offset. -/
def pwriteBlock (f : ImageFile) (k : Int) (b : Block) : Option ImageFile :=
  let offset := int32 (k * ufsBlockSize)
  if offset < 0 then none
  else some
    { size := max f.size (offset + ufsBlockSize)
      block := Function.update f.block (offset / ufsBlockSize).toNat b }

/-- The loop that zeroes `n` blocks from number `i` on. -/
def zeroBlocks : Nat → Nat → ImageFile → Option ImageFile
  | 0, _, f => some f
  | n + 1, i, f => do zeroBlocks n (i + 1) (← f.pwriteBlock i Buffer.zero)

end ImageFile

namespace Mkfs

/-- `len / unit`, and one more if there is a remainder. -/
def ceilDiv (len unit : Int) : Int :=
  if len.tmod unit ≠ 0 then len.tdiv unit + 1 else len.tdiv unit

/-- The superblock for `num_inodes` and `num_data`. -/
def layout (numInodes numData : Int) : Super :=
  let bitsPerBlock := 8 * (ufsBlockSize : Int)
  let inodeBitmapAddr := 1
  let inodeBitmapLen := ceilDiv numInodes bitsPerBlock
  let dataBitmapAddr := inodeBitmapAddr + inodeBitmapLen
  let dataBitmapLen := ceilDiv numData bitsPerBlock
  let inodeRegionAddr := dataBitmapAddr + dataBitmapLen
  let totalInodeBytes := int32 (numInodes * 128)
  let inodeRegionLen := ceilDiv totalInodeBytes ufsBlockSize
  { inodeBitmapAddr, inodeBitmapLen, dataBitmapAddr, dataBitmapLen, inodeRegionAddr,
    inodeRegionLen
    dataRegionAddr := inodeRegionAddr + inodeRegionLen
    dataRegionLen := numData
    numInodes, numData }

def totalBlocks (s : Super) : Int :=
  int32 (1 + s.inodeBitmapLen + s.dataBitmapLen + s.inodeRegionLen + s.dataRegionLen)

/-- A bitmap block with the first bit set. -/
def firstBit : Block := Buffer.zero.set 0 1

/-- The block of the inode table that holds the root directory. -/
def rootInode (s : Super) (itable : Block) : Block :=
  Block.setInode itable 0
    { type := ufsDirectory
      size := 64
      direct := fun k => if k.val = 0 then Buffer.unsigned s.dataRegionAddr
        else Buffer.unsigned (-1) }

/-- The entries of the root directory. -/
def rootEntry (parent : Block) : Nat → DirEnt
  | 0 => ⟨(Block.entry parent 0).name.strcpy [46], 0⟩
  | 1 => ⟨(Block.entry parent 1).name.strcpy [46, 46], 0⟩
  | k => ⟨(Block.entry parent k).name, -1⟩

def rootDirectory (parent : Block) : Block := Block.ofEntries (rootEntry parent)

/-- The image file, unless an assertion or a `pwrite` fails. -/
def mkfs (numInodes numData : Int) (itable parent : Block) : Option ImageFile := do
  if numInodes < 32 ∨ numData < 32 then none
  else
    let s := layout numInodes numData
    let f : ImageFile := { size := 40, block := Function.update (fun _ => Buffer.zero) 0 s.encode }
    let f ← f.zeroBlocks (totalBlocks s - 1).toNat 1
    let f ← f.pwriteBlock s.inodeBitmapAddr firstBit
    let f ← f.pwriteBlock s.dataBitmapAddr firstBit
    let f ← f.pwriteBlock s.inodeRegionAddr (rootInode s itable)
    f.pwriteBlock s.dataRegionAddr (rootDirectory parent)

end Mkfs

end Gunrock
