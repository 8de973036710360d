import Gunrock.Disk
import Gunrock.Library.FreeList

/-!
# The local file system

`LocalFileSystem.h` and `LocalFileSystem.cpp`, translated function by function.  A loop of
the source is a recursion on the number of iterations left, named after what it looks
for; the arithmetic and the comparisons in it are the source's.

Four fragments occur several times in the source, in the same words, and are written once
here with parameters: the bitmap scan of `create` and `write` (`scanBitmap`, `allocate`),
the read-modify-write of an inode (`updateInode`), and the clearing of a bit in either
bitmap (`clearBit`).

Return codes are the source's: an inode number, a byte count or `0` for success, and the
negated constants below otherwise.  `stat` returns its inode in place of the `0`.
-/

namespace Gunrock

/-! ## Error codes -/

/-- The operation failed because there wasn't enough space on the disk. -/
@[simp] abbrev eNotEnoughSpace : Int := 1
/-- Unlinking a directory that is *not* empty. -/
@[simp] abbrev eDirNotEmpty : Int := 2
/-- The inode number is invalid. -/
@[simp] abbrev eInvalidInode : Int := 3
/-- The `size` for a read or write is invalid. -/
@[simp] abbrev eInvalidSize : Int := 5
/-- Attempting to write to a directory. -/
@[simp] abbrev eWriteToDir : Int := 6
/-- Lookup an entity that does not exist. -/
@[simp] abbrev eNotFound : Int := 7
/-- Invalid name. -/
@[simp] abbrev eInvalidName : Int := 8
/-- Creating an entity that exists with a different type or writing to a directory. -/
@[simp] abbrev eInvalidType : Int := 9
/-- Unlinking `.` or `..`. -/
@[simp] abbrev eUnlinkNotAllowed : Int := 10

/-- `"."` -/
def dot : Bytes := [46]

/-- `".."` -/
def dotdot : Bytes := [46, 46]

namespace LocalFileSystem

open Disk

/-! ## Shared fragments -/

/-- `(size + UFS_BLOCK_SIZE - 1) / UFS_BLOCK_SIZE`. -/
def blockCount (size : Int) : Int := (int32 (size + (ufsBlockSize - 1))).tdiv ufsBlockSize

/-- `inode.direct[x]`, which is undefined outside the array. -/
def directAt (inode : Inode) (x : Int) : FS Nat :=
  if 0 ≤ x ∧ x < directPtrs then return inode.ptr x.toNat else throw .undefined

/-- `inode.direct[x] = v`. -/
def setDirect (inode : Inode) (x : Int) (v : Nat) : FS Inode :=
  if 0 ≤ x ∧ x < directPtrs then return inode.setPtr x.toNat v else throw .undefined

def readSuperBlock : FS Super := do return Super.decode (← readBlock 0)

/-- The `j` and `k` loops of a bitmap scan: the first clear bit of a block, which is
searched byte by byte and bit by bit. -/
def firstClearBit (byteBuf : Block) : Option Nat := FreeList.scan byteBuf.bit ufsBlockSize 8

/-- The bitmap scan, from block `i` of the bitmap at `addr` with `n` blocks to go.  It sets
the bit it finds and returns its index, or nothing when `bQuit` stays `0`.  The index is
an `int` that is counted up bit by bit, hence the bound. -/
def scanBitmap (addr : Int) : Nat → Nat → FS (Option Nat)
  | 0, _ => return none
  | n + 1, i => do
    let byteBuf ← readBlock (addr + i)
    match firstClearBit byteBuf with
    | some b =>
      writeBlock (addr + i) (byteBuf.setBit b)
      return some (ufsBlockSize * 8 * i + b)
    | none =>
      if 2 ^ 31 ≤ ufsBlockSize * 8 * (i + 1) then throw .undefined
      else scanBitmap addr n (i + 1)

/-- A bitmap scan with the check that always follows it: no free bit, or a first free bit
past the `num` bits in use, ends the transaction. -/
def allocate (addr len num : Int) : FS (Option Nat) := do
  match ← scanBitmap addr len.toNat 0 with
  | none =>
    rollback
    return none
  | some index =>
    if num ≤ index then
      rollback
      return none
    else
      return some index

/-- Clear bit `offset` of the bitmap at `addr`. -/
def clearBit (addr : Int) (index : Nat) : FS PUnit := do
  let byteBuf ← readBlock (addr + (index / (ufsBlockSize * 8) : Nat))
  writeBlock (addr + (index / (ufsBlockSize * 8) : Nat))
    (byteBuf.clearBit (index % (ufsBlockSize * 8)))

/-- Free the data block with number `ptr`; the subtraction is unsigned. -/
def freeBlock (super : Super) (ptr : Nat) : FS PUnit :=
  clearBit super.dataBitmapAddr (Buffer.unsigned (ptr - super.dataRegionAddr))

/-- Change one inode of the inode table, and return the table block it lies in. -/
def updateInode (super : Super) (inodeNumber : Nat) (f : Inode → Inode) : FS Block := do
  let block := super.inodeRegionAddr + (inodeNumber / 32 : Nat)
  let byteBuf ← readBlock block
  let byteBuf := Block.setInode byteBuf (inodeNumber % 32)
    (f (Block.inode byteBuf (inodeNumber % 32)))
  writeBlock block byteBuf
  return byteBuf

/-! ## `stat`, `lookup` and `read` -/

/-- `checkInodeIsValid`, which answers whether the number is *not* valid. -/
def checkInodeIsValid (super : Super) (inodeNumber : Int) : Bool :=
  super.numInodes ≤ inodeNumber || inodeNumber < 0

def stat (inodeNumber : Int) : FS (Except Int Inode) := do
  let super ← readSuperBlock
  if checkInodeIsValid super inodeNumber then
    return .error (-eInvalidInode)
  else
    let n := inodeNumber.toNat
    let byteBuf ← readBlock (super.inodeBitmapAddr + (n / (ufsBlockSize * 8) : Nat))
    if byteBuf.bit (n % (ufsBlockSize * 8)) = false then
      return .error (-eInvalidInode)
    else
      let inodeBuf ← readBlock (super.inodeRegionAddr + (n / 32 : Nat))
      return .ok (Block.inode inodeBuf (n % 32))

/-- The inner loop of `lookup`: all 128 slots of a block. -/
def findEntry (byteBuf : Block) (name : Bytes) : Option Int :=
  (List.range 128).findSome? fun j =>
    let entry := Block.entry byteBuf j
    if entry.inum ≠ -1 ∧ entry.cname = Buffer.cStr name then some entry.inum else none

/-- The outer loop of `lookup`. -/
def lookupFrom (pinum : Inode) (name : Bytes) : Nat → Nat → FS Int
  | 0, _ => return -eNotFound
  | n + 1, i => do
    let byteBuf ← readBlock (Buffer.signed (← directAt pinum i))
    match findEntry byteBuf name with
    | some inum => return inum
    | none => lookupFrom pinum name n (i + 1)

def lookup (parentInodeNumber : Int) (name : Bytes) : FS Int := do
  match ← stat parentInodeNumber with
  | .error _ => return -eInvalidInode
  | .ok pinum =>
    if pinum.type ≠ ufsDirectory then
      return -eInvalidInode
    else
      lookupFrom pinum name (blockCount pinum.size).toNat 0

/-- The loop of `read`, with `n` of the direct pointers left from the `i`-th on.  The bytes
stored so far are `buffer`; a copy of negative length is undefined. -/
def readFrom (inode : Inode) : Nat → Nat → Int → Bytes → FS Bytes
  | 0, _, _, buffer => return buffer
  | n + 1, i, remaining, buffer => do
    let dataBlockIndex := inode.ptr i
    if dataBlockIndex = 0 then
      readFrom inode n (i + 1) remaining buffer
    else
      let tempBuffer ← readBlock (Buffer.signed dataBlockIndex)
      let copySize := min (ufsBlockSize : Int) remaining
      if copySize < 0 then
        throw .undefined
      else
        let buffer := buffer ++ (List.range copySize.toNat).map tempBuffer.get
        if remaining - copySize ≤ 0 then
          return buffer
        else
          readFrom inode n (i + 1) (remaining - copySize) buffer

/-- `read` into a buffer that is not null.  The result is the return value and the bytes
stored from the start of the buffer. -/
def read (inodeNumber : Int) (size : Int) : FS (Int × Bytes) := do
  if size ≤ 0 then
    return (-eInvalidSize, [])
  else
    match ← stat inodeNumber with
    | .error _ => return (-eInvalidInode, [])
    | .ok inode =>
      let buffer ← readFrom inode directPtrs 0 (min size inode.size) []
      return (buffer.length, buffer)

/-! ## `create` -/

/-- The contents of a new directory's block. -/
def directoryBlock (inumNew : Nat) (parentInodeNumber : Int) : Block :=
  Block.ofEntries fun
    | 0 => ⟨Buffer.zero.strcpy dot, inumNew⟩
    | 1 => ⟨Buffer.zero.strcpy dotdot, parentInodeNumber⟩
    | _ => ⟨Buffer.zero, -1⟩

/-- The contents of a fresh block of a directory, with one entry. -/
def entryBlock (name : Bytes) (inumNew : Nat) : Block :=
  Block.ofEntries fun
    | 0 => ⟨Buffer.zero.strcpy (Buffer.cStr name), inumNew⟩
    | _ => ⟨Buffer.zero, -1⟩

/-- The slots of block `i` of a directory that `create` may fill: the first one past the
directory's size, or marked unused. -/
def findSlot (byteBuf : Block) (size : Int) (i : Nat) : Option Nat :=
  (List.range 128).find? fun j =>
    decide (size ≤ 32 * (128 * i + j : Nat)) || (Block.entry byteBuf j).inum == -1

/-- The slot search: fill the first slot and return its index in the directory. -/
def fillSlot (pinum : Inode) (name : Bytes) (inumNew : Nat) : Nat → Nat → FS (Option Nat)
  | 0, _ => return none
  | n + 1, i => do
    let block := Buffer.signed (← directAt pinum i)
    let byteBuf ← readBlock block
    match findSlot byteBuf pinum.size i with
    | some j =>
      writeBlock block (Block.setEntry byteBuf j
        ⟨(Block.entry byteBuf j).name.strcpy (Buffer.cStr name), inumNew⟩)
      return some (128 * i + j)
    | none => fillSlot pinum name inumNew n (i + 1)

/-- Extend the parent by a block when all its blocks are full. -/
def growParent (super : Super) (parentInodeNumber : Nat) (cntOfBlock : Int) (name : Bytes)
    (inumNew : Nat) : FS Bool := do
  if directPtrs ≤ cntOfBlock then
    rollback
    return false
  else
    match ← allocate super.dataBitmapAddr super.dataBitmapLen super.numData with
    | none => return false
    | some indexDataNew =>
      writeBlock (super.dataRegionAddr + indexDataNew) (entryBlock name inumNew)
      if cntOfBlock < 0 then
        throw .undefined
      else
        let _ ← updateInode super parentInodeNumber fun inode =>
          { inode with size := (1 + 128 * cntOfBlock) * 32 }.setPtr cntOfBlock.toNat
            (Buffer.unsigned (super.dataRegionAddr + indexDataNew))
        return true

/-- Enter `name` in the parent directory; the answer is `false` when the transaction was
rolled back for lack of space. -/
def appendEntry (super : Super) (parentInodeNumber : Nat) (pinum : Inode) (name : Bytes)
    (inumNew : Nat) : FS Bool := do
  let cntOfBlock := blockCount pinum.size
  match ← fillSlot pinum name inumNew cntOfBlock.toNat 0 with
  | none => growParent super parentInodeNumber cntOfBlock name inumNew
  | some indexOfEntry =>
    if pinum.size < (1 + indexOfEntry) * 32 then
      let _ ← updateInode super parentInodeNumber fun inode =>
        { inode with size := (1 + indexOfEntry) * 32 }
      return true
    else
      return true

/-- The inode of a new file or directory; the pointers of a file stay what they were. -/
def newInode (super : Super) (type : Int) (indexOfData : Nat) (inode : Inode) : Inode :=
  if type = ufsDirectory then
    { inode with type := type, size := 64 }.setPtr 0
      (Buffer.unsigned (super.dataRegionAddr + indexOfData))
  else
    { inode with type := type, size := 0 }

/-- The block of a new directory; a file gets none, and `indexOfData` stays `0`. -/
def allocateFirst (super : Super) (type : Int) : FS (Option Nat) :=
  if type = ufsDirectory then allocate super.dataBitmapAddr super.dataBitmapLen super.numData
  else return some 0

/-- Fill the block of a new directory. -/
def writeFirst (super : Super) (type : Int) (indexOfData inumNew : Nat)
    (parentInodeNumber : Int) : FS PUnit :=
  if type = ufsDirectory then
    writeBlock (super.dataRegionAddr + indexOfData) (directoryBlock inumNew parentInodeNumber)
  else return ⟨⟩

/-- `create` from `beginTransaction` on, for a name that the parent does not have. -/
def createEntry (super : Super) (parentInodeNumber : Int) (pinum : Inode) (type : Int)
    (name : Bytes) : FS Int := do
  beginTransaction
  match ← allocateFirst super type with
  | none => return -eNotEnoughSpace
  | some indexOfData =>
    match ← allocate super.inodeBitmapAddr super.inodeBitmapLen super.numInodes with
    | none => return -eNotEnoughSpace
    | some inumNew =>
      writeFirst super type indexOfData inumNew parentInodeNumber
      if ← appendEntry super parentInodeNumber.toNat pinum name inumNew then
        let _ ← updateInode super inumNew (newInode super type indexOfData)
        commit
        return inumNew
      else
        return -eNotEnoughSpace

def create (parentInodeNumber : Int) (type : Int) (name : Bytes) : FS Int := do
  if name = [] ∨ dirEntNameSize ≤ name.length then
    return -eInvalidName
  else if name = dot ∨ name = dotdot then
    return -eInvalidName
  else
    match ← stat parentInodeNumber with
    | .error _ => return -eInvalidInode
    | .ok pinum =>
      if pinum.type ≠ ufsDirectory then
        return -eInvalidInode
      else
        let inum2 ← lookup parentInodeNumber name
        if 0 ≤ inum2 then
          match ← stat inum2 with
          | .error _ => return -eInvalidInode
          | .ok inode2 => if inode2.type ≠ type then return -eInvalidType else return inum2
        else if inum2 ≠ -eNotFound then
          return inum2
        else
          let super ← readSuperBlock
          createEntry super parentInodeNumber pinum type name

/-! ## `write` -/

/-- The allocating loop of `write`, with `n` blocks to add from index `x` on. -/
def growFile (super : Super) : Nat → Int → Inode → FS (Option Inode)
  | 0, _, inode => return some inode
  | n + 1, x, inode => do
    match ← allocate super.dataBitmapAddr super.dataBitmapLen super.numData with
    | none => return none
    | some indexOfData =>
      let inode ← setDirect inode x (Buffer.unsigned (super.dataRegionAddr + indexOfData))
      growFile super n (x + 1) inode

/-- The freeing loop of `write`; a freed pointer becomes `-1`. -/
def shrinkFile (super : Super) : Nat → Int → Inode → FS Inode
  | 0, _, inode => return inode
  | n + 1, x, inode => do
    freeBlock super (← directAt inode x)
    let inode ← setDirect inode x (Buffer.unsigned (-1))
    shrinkFile super n (x + 1) inode

/-- Give the file `cntOfBlock` blocks, where it has `numBlockNow`. -/
def resize (super : Super) (inode : Inode) (numBlockNow cntOfBlock : Int) : FS (Option Inode) :=
  if numBlockNow < cntOfBlock then
    growFile super (cntOfBlock - numBlockNow).toNat numBlockNow inode
  else do
    let inode ← shrinkFile super (numBlockNow - cntOfBlock).toNat cntOfBlock inode
    return some inode

/-- The copying loop of `write`.  The last block, when it is not full, is completed with
what the scratch buffer `byteBuf` holds. -/
def writeData (inode : Inode) (byteBuf : Block) : Nat → Nat → (Nat → UInt8) → Int → FS PUnit
  | 0, _, _, _ => return ⟨⟩
  | n + 1, x, ptrBuf, uncopyBytes => do
    if uncopyBytes = 0 then
      return ⟨⟩
    else if ufsBlockSize ≤ uncopyBytes then
      writeBlock (Buffer.signed (← directAt inode x)) (Buffer.ofFn ptrBuf)
      writeData inode byteBuf n (x + 1) (fun i => ptrBuf (ufsBlockSize + i))
        (uncopyBytes - ufsBlockSize)
    else
      writeBlock (Buffer.signed (← directAt inode x))
        (Buffer.ofFn fun i => if (i : Int) < uncopyBytes then ptrBuf i else byteBuf.get i)

/-- `write`, where `byteBuf2` is null or points to the bytes `byteBuf2 0`, `byteBuf2 1`,
and so on. -/
def write (inum2 : Int) (byteBuf2 : Option (Nat → UInt8)) (size : Int) : FS Int := do
  match byteBuf2 with
  | none => return -eInvalidSize
  | some ptrBuf =>
    let cntOfBlock := blockCount size
    if size ≤ 0 then
      return -eInvalidSize
    else if directPtrs < cntOfBlock then
      return -eNotEnoughSpace
    else
      match ← stat inum2 with
      | .error _ => return -eInvalidInode
      | .ok inode =>
        if inode.type ≠ ufsRegularFile then
          return -eWriteToDir
        else
          let super ← readSuperBlock
          beginTransaction
          match ← resize super inode (blockCount inode.size) cntOfBlock with
          | none => return -eNotEnoughSpace
          | some inode =>
            let inode := { inode with size := size }
            let byteBuf ← updateInode super inum2.toNat fun _ => inode
            writeData inode byteBuf cntOfBlock.toNat 0 ptrBuf size
            commit
            return size

/-! ## `unlink` -/

/-- The blocks of a directory, read in order from the `i`-th on. -/
def readBlocks (pinum : Inode) : Nat → Nat → FS (List Block)
  | 0, _ => return []
  | n + 1, i => do
    let block ← readBlock (Buffer.signed (← directAt pinum i))
    return block :: (← readBlocks pinum n (i + 1))

/-- `pEntry[k]` of the blocks read one after the other into `pEnts`. -/
def pEntry (pEnts : List Block) (k : Nat) : DirEnt :=
  Block.entry (pEnts.getD (k / 128) Buffer.zero) (k % 128)

/-- `pEntry` after the entry at `indexOfEntry` was moved over by those behind it, of which
the last becomes unused. -/
def removeEntry (entries : Nat → DirEnt) (indexOfEntry countOfEntries : Nat) : Nat → DirEnt :=
  fun k =>
    if k = countOfEntries then { entries k with inum := -1 }
    else if indexOfEntry ≤ k ∧ k < countOfEntries then entries (k + 1)
    else entries k

/-- Write the first `n` blocks of entries back, from the `i`-th on. -/
def writeEntries (pinum : Inode) (entries : Nat → DirEnt) : Nat → Nat → FS PUnit
  | 0, _ => return ⟨⟩
  | n + 1, i => do
    writeBlock (Buffer.signed (← directAt pinum i))
      (Block.ofEntries fun j => entries (128 * i + j))
    writeEntries pinum entries n (i + 1)

/-- Whether block `i` of a directory of `size` bytes has an entry other than `.` and `..`. -/
def hasEntry (byteBuf : Block) (size : Int) (i : Nat) : Bool :=
  (List.range 128).any fun j =>
    let entry := Block.entry byteBuf j
    decide (32 * (128 * i + j : Nat) < size) && entry.inum != -1 && entry.cname != dot
      && entry.cname != dotdot

/-- The emptiness scan of `unlink`. -/
def notEmptyFrom (inode2 : Inode) : Nat → Nat → FS Bool
  | 0, _ => return false
  | n + 1, i => do
    let byteBuf ← readBlock (Buffer.signed (← directAt inode2 i))
    if hasEntry byteBuf inode2.size i then return true else notEmptyFrom inode2 n (i + 1)

/-- Whether the inode is a directory with an entry other than `.` and `..`. -/
def isFullDirectory (inode2 : Inode) : FS Bool :=
  if inode2.type = ufsDirectory then notEmptyFrom inode2 (blockCount inode2.size).toNat 0
  else return false

/-- Free the parent's last block if the entry removed was the only one in it. -/
def dropBlock (super : Super) (pinum : Inode) (cntOfBlockBefore cntOfBlock : Int) : FS Inode :=
  if cntOfBlockBefore ≠ cntOfBlock then do
    freeBlock super (← directAt pinum cntOfBlock)
    setDirect pinum cntOfBlock (Buffer.unsigned (-1))
  else return pinum

/-- Free the blocks of the unlinked inode from the `i`-th on. -/
def freeBlocks (super : Super) (inode2 : Inode) : Nat → Nat → FS PUnit
  | 0, _ => return ⟨⟩
  | n + 1, i => do
    freeBlock super (← directAt inode2 i)
    freeBlocks super inode2 n (i + 1)

/-- `unlink` once the entry and the inode it names are known to be removable. -/
def removeAt (super : Super) (parentInodeNumber : Int) (pinum : Inode) (pEnts : List Block)
    (indexOfEntry inumNew : Nat) (inode2 : Inode) : FS Int := do
  let countOfEntries := (pinum.size / 32).toNat - 1
  let cntOfBlockBefore := blockCount pinum.size
  let pinum := { pinum with size := (32 * countOfEntries : Nat) }
  let cntOfBlock := blockCount pinum.size
  writeEntries pinum (removeEntry (pEntry pEnts) indexOfEntry countOfEntries) cntOfBlock.toNat 0
  let pinum ← dropBlock super pinum cntOfBlockBefore cntOfBlock
  let _ ← updateInode super parentInodeNumber.toNat fun _ => pinum
  freeBlocks super inode2 (blockCount inode2.size).toNat 0
  clearBit super.inodeBitmapAddr inumNew
  commit
  return 0

def unlink (parentInodeNumber : Int) (name : Bytes) : FS Int := do
  if name = dot ∨ name = dotdot then
    return -eUnlinkNotAllowed
  else if name = [] then
    return -eInvalidName
  else
    match ← stat parentInodeNumber with
    | .error _ => return -eInvalidInode
    | .ok pinum =>
      if pinum.type ≠ ufsDirectory ∨ pinum.size < 64 then
        return -eInvalidInode
      else
        let super ← readSuperBlock
        beginTransaction
        let pEnts ← readBlocks pinum (blockCount pinum.size).toNat 0
        let indexOfEntry := (List.range (pinum.size / 32).toNat).find? fun k =>
          decide ((pEntry pEnts k).inum ≠ -1 ∧ name = (pEntry pEnts k).cname)
        match indexOfEntry with
        | none =>
          rollback
          return -eInvalidName
        | some indexOfEntry =>
          let inumNew := (pEntry pEnts indexOfEntry).inum
          if inumNew < 0 then
            rollback
            return -eInvalidName
          else
            match ← stat inumNew with
            | .error _ =>
              rollback
              return -eInvalidInode
            | .ok inode2 =>
              if ← isFullDirectory inode2 then
                rollback
                return -eDirNotEmpty
              else
                removeAt super parentInodeNumber pinum pEnts indexOfEntry inumNew.toNat inode2

end LocalFileSystem

end Gunrock
