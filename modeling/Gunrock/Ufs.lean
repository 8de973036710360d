import Gunrock.Library.Buffer

/-!
# On-disk structures

`ufs.h`: the records of the file system, how they lie in the 4096 bytes of a block, and
the constants that go with them.  A record is a Lean structure together with the bytes
it is stored as; the C code reaches it through a union of the block's bytes with an
array of records, which is `Block.inode`, `Block.entry` and their setters here.

A directory entry's `name` stays a buffer of 28 bytes, because the bytes after the
terminator are stored, moved and compared like any others.
-/

namespace Gunrock

/-! ## Constants -/

@[simp] abbrev ufsDirectory : Int := 0
@[simp] abbrev ufsRegularFile : Int := 1

@[simp] abbrev ufsBlockSize : Nat := 4096
@[simp] abbrev directPtrs : Nat := 30

@[simp] abbrev maxFileSize : Nat := directPtrs * ufsBlockSize

@[simp] abbrev dirEntNameSize : Nat := 28

/-- A disk block. -/
abbrev Block := Buffer 4096

/-- What the code handles as a `std::string` or as the contents of a `char` array. -/
abbrev Bytes := List UInt8

/-- The `int` that a value too large or too small for one is stored as. -/
def int32 (z : Int) : Int := Buffer.signed (Buffer.unsigned z)

theorem int32_of_fits {z : Int} (h : Buffer.FitsInt z) : int32 z = z := Buffer.signed_unsigned h

/-! ## `inode_t` -/

/-- `inode_t`, 128 bytes. -/
@[ext]
structure Inode where
  /-- `UFS_DIRECTORY` or `UFS_REGULAR_FILE`. -/
  type : Int
  /-- In bytes. -/
  size : Int
  /-- Block numbers. -/
  direct : Fin 30 → Nat

namespace Inode

/-- `direct[x]`, for `x` within the array. -/
def ptr (i : Inode) (x : Nat) : Nat := if h : x < 30 then i.direct ⟨x, h⟩ else 0

/-- `direct[x] = v`. -/
def setPtr (i : Inode) (x v : Nat) : Inode :=
  { i with direct := fun k => if k.val = x then v else i.direct k }

def decode (b : Buffer 128) : Inode :=
  { type := Buffer.signed (b.word (4 * 0))
    size := Buffer.signed (b.word (4 * 1))
    direct := fun k => b.word (4 * (k + 2)) }

def encode (i : Inode) : Buffer 128 := Buffer.ofWords fun
  | 0 => Buffer.unsigned i.type
  | 1 => Buffer.unsigned i.size
  | x + 2 => i.ptr x

/-- Every field fits the 32 bits it is stored in. -/
structure Fits (i : Inode) : Prop where
  type : Buffer.FitsInt i.type
  size : Buffer.FitsInt i.size
  direct : ∀ k, i.direct k < 2 ^ 32

theorem fits_decode (b : Buffer 128) : (decode b).Fits :=
  ⟨Buffer.fitsInt_signed (b.word_lt _), Buffer.fitsInt_signed (b.word_lt _),
    fun _ => b.word_lt _⟩

theorem Fits.ptr {i : Inode} (h : i.Fits) (x : Nat) : i.ptr x < 2 ^ 32 := by
  unfold Inode.ptr
  split
  · exact h.direct _
  · decide

theorem Fits.withSize {i : Inode} (h : i.Fits) {z : Int} (hz : Buffer.FitsInt z) :
    ({ i with size := z } : Inode).Fits := ⟨h.type, hz, h.direct⟩

theorem Fits.setPtr {i : Inode} (h : i.Fits) {x v : Nat} (hv : v < 2 ^ 32) :
    (i.setPtr x v).Fits := by
  refine ⟨h.type, h.size, fun k => ?_⟩
  unfold Inode.setPtr
  dsimp only
  split
  · exact hv
  · exact h.direct k

theorem decode_encode {i : Inode} (h : i.Fits) : decode i.encode = i := by
  apply Inode.ext
  · simp only [decode, encode]
    rw [Buffer.word_ofWords (by omega), Nat.mod_eq_of_lt (Buffer.unsigned_lt _)]
    exact Buffer.signed_unsigned h.type
  · simp only [decode, encode]
    rw [Buffer.word_ofWords (by omega), Nat.mod_eq_of_lt (Buffer.unsigned_lt _)]
    exact Buffer.signed_unsigned h.size
  · funext k
    simp only [decode, encode]
    rw [Buffer.word_ofWords (by omega), Nat.mod_eq_of_lt (h.ptr _)]
    simp [ptr]

theorem encode_decode (b : Buffer 128) : (decode b).encode = b := by
  have hwords : ((decode b).encode) = Buffer.ofWords fun k => b.word (4 * k) := by
    apply Buffer.ofWords_congr
    intro k hk
    match k with
    | 0 => exact Buffer.unsigned_signed (b.word_lt _)
    | 1 => exact Buffer.unsigned_signed (b.word_lt _)
    | x + 2 =>
        have hx : x < 30 := by omega
        simp [ptr, decode, hx]
  rw [hwords, Buffer.ofWords_word]

@[simp] theorem ptr_setPtr_self {i : Inode} {x v : Nat} (h : x < 30) : (i.setPtr x v).ptr x = v := by
  simp [ptr, setPtr, h]

theorem ptr_setPtr_of_ne {i : Inode} {x y v : Nat} (h : y ≠ x) : (i.setPtr x v).ptr y = i.ptr y := by
  simp [ptr, setPtr, h]

/-- `direct[y] = f y` for the `n` values of `y` from `x` on. -/
def setPtrs (i : Inode) (x n : Nat) (f : Nat → Nat) : Inode :=
  { i with direct := fun k => if x ≤ k.val ∧ k.val < x + n then f k else i.direct k }

theorem ptr_setPtrs {i : Inode} {x n y : Nat} {f : Nat → Nat} (hy : y < 30) :
    (i.setPtrs x n f).ptr y = if x ≤ y ∧ y < x + n then f y else i.ptr y := by
  simp only [ptr, setPtrs, dif_pos hy]

@[simp] theorem setPtrs_zero (i : Inode) (x : Nat) (f : Nat → Nat) : i.setPtrs x 0 f = i := by
  apply Inode.ext
  · rfl
  · rfl
  · funext k
    exact if_neg (by omega)

theorem setPtrs_congr {i : Inode} {x n : Nat} {f f' : Nat → Nat}
    (h : ∀ y, x ≤ y → y < x + n → f y = f' y) : i.setPtrs x n f = i.setPtrs x n f' := by
  apply Inode.ext
  · rfl
  · rfl
  · funext k
    simp only [setPtrs]
    split
    · rename_i hk
      exact h _ hk.1 hk.2
    · rfl

theorem setPtrs_succ (i : Inode) (x n : Nat) (f : Nat → Nat) :
    (i.setPtr x (f x)).setPtrs (x + 1) n f = i.setPtrs x (n + 1) f := by
  apply Inode.ext
  · rfl
  · rfl
  · funext k
    simp only [setPtrs, setPtr]
    by_cases hk : k.val = x
    · rw [if_neg (by omega), if_pos hk, if_pos (by omega), hk]
    · by_cases hin : x + 1 ≤ k.val ∧ k.val < x + 1 + n
      · rw [if_pos hin, if_pos (by omega)]
      · rw [if_neg hin, if_neg hk, if_neg (by omega)]

theorem Fits.setPtrs {i : Inode} (h : i.Fits) {x n : Nat} {f : Nat → Nat}
    (hf : ∀ y, x ≤ y → y < x + n → f y < 2 ^ 32) : (i.setPtrs x n f).Fits := by
  refine ⟨h.type, h.size, fun k => ?_⟩
  unfold Inode.setPtrs
  dsimp only
  split
  · rename_i hk
    exact hf _ hk.1 hk.2
  · exact h.direct k

end Inode

/-! ## `dir_ent_t` -/

/-- `dir_ent_t`, 32 bytes. -/
@[ext]
structure DirEnt where
  /-- Up to 28 bytes of name, terminator included. -/
  name : Buffer 28
  /-- Inode number of the entry, `-1` for an unused slot. -/
  inum : Int

namespace DirEnt

def decode (b : Buffer 32) : DirEnt :=
  { name := b.slice 0 28, inum := Buffer.signed (b.word 28) }

def encode (e : DirEnt) : Buffer 32 := Buffer.ofFn fun i =>
  if i < 28 then e.name.get i else Buffer.wordByte (Buffer.unsigned e.inum) (i - 28)

/-- The name as `strcmp` and `operator<<` see it. -/
def cname (e : DirEnt) : Bytes := Buffer.cStr e.name.toList

theorem decode_encode {e : DirEnt} (h : Buffer.FitsInt e.inum) : decode e.encode = e := by
  apply DirEnt.ext
  · apply Buffer.ext_get
    intro i hi
    simp only [decode, encode]
    rw [Buffer.get_slice _ _ hi, Nat.zero_add, Buffer.get_ofFn_of_lt (by omega), if_pos hi]
  · have hw : e.encode.word 28 =
        (Buffer.ofWords (fun _ => Buffer.unsigned e.inum) : Buffer 32).word (4 * 7) := by
      simp [Buffer.word, Buffer.ofWords, encode]
    simp only [decode]
    rw [hw, Buffer.word_ofWords (by omega), Nat.mod_eq_of_lt (Buffer.unsigned_lt _)]
    exact Buffer.signed_unsigned h

theorem encode_decode (b : Buffer 32) : (decode b).encode = b := by
  apply Buffer.ext_get
  intro i hi
  simp only [decode, encode]
  rw [Buffer.get_ofFn_of_lt hi]
  split
  · rename_i h
    rw [Buffer.get_slice _ _ h, Nat.zero_add]
  · rw [Buffer.unsigned_signed (b.word_lt _), Buffer.wordByte_word _ _ (by omega)]
    congr 1
    omega

theorem fitsInt_decode (b : Buffer 32) : Buffer.FitsInt (decode b).inum :=
  Buffer.fitsInt_signed (b.word_lt _)

end DirEnt

/-! ## `super_t` -/

/-- `super_t`, 40 bytes at the start of block 0. -/
@[ext]
structure Super where
  inodeBitmapAddr : Int
  inodeBitmapLen : Int
  dataBitmapAddr : Int
  dataBitmapLen : Int
  inodeRegionAddr : Int
  inodeRegionLen : Int
  dataRegionAddr : Int
  dataRegionLen : Int
  /-- Just the number of inodes. -/
  numInodes : Int
  /-- And of data blocks. -/
  numData : Int

namespace Super

def decode (b : Block) : Super :=
  { inodeBitmapAddr := Buffer.signed (b.word (4 * 0))
    inodeBitmapLen := Buffer.signed (b.word (4 * 1))
    dataBitmapAddr := Buffer.signed (b.word (4 * 2))
    dataBitmapLen := Buffer.signed (b.word (4 * 3))
    inodeRegionAddr := Buffer.signed (b.word (4 * 4))
    inodeRegionLen := Buffer.signed (b.word (4 * 5))
    dataRegionAddr := Buffer.signed (b.word (4 * 6))
    dataRegionLen := Buffer.signed (b.word (4 * 7))
    numInodes := Buffer.signed (b.word (4 * 8))
    numData := Buffer.signed (b.word (4 * 9)) }

/-- The superblock in a block that is otherwise zero. -/
def encode (s : Super) : Block := Buffer.ofWords fun
  | 0 => Buffer.unsigned s.inodeBitmapAddr
  | 1 => Buffer.unsigned s.inodeBitmapLen
  | 2 => Buffer.unsigned s.dataBitmapAddr
  | 3 => Buffer.unsigned s.dataBitmapLen
  | 4 => Buffer.unsigned s.inodeRegionAddr
  | 5 => Buffer.unsigned s.inodeRegionLen
  | 6 => Buffer.unsigned s.dataRegionAddr
  | 7 => Buffer.unsigned s.dataRegionLen
  | 8 => Buffer.unsigned s.numInodes
  | 9 => Buffer.unsigned s.numData
  | _ => 0

/-- Every field fits an `int`. -/
structure Fits (s : Super) : Prop where
  inodeBitmapAddr : Buffer.FitsInt s.inodeBitmapAddr
  inodeBitmapLen : Buffer.FitsInt s.inodeBitmapLen
  dataBitmapAddr : Buffer.FitsInt s.dataBitmapAddr
  dataBitmapLen : Buffer.FitsInt s.dataBitmapLen
  inodeRegionAddr : Buffer.FitsInt s.inodeRegionAddr
  inodeRegionLen : Buffer.FitsInt s.inodeRegionLen
  dataRegionAddr : Buffer.FitsInt s.dataRegionAddr
  dataRegionLen : Buffer.FitsInt s.dataRegionLen
  numInodes : Buffer.FitsInt s.numInodes
  numData : Buffer.FitsInt s.numData

theorem decode_encode {s : Super} (h : s.Fits) : decode s.encode = s := by
  have hw : ∀ {z : Int}, Buffer.FitsInt z →
      Buffer.signed (Buffer.unsigned z % 2 ^ 32) = z := by
    intro z hz
    rw [Nat.mod_eq_of_lt (Buffer.unsigned_lt _), Buffer.signed_unsigned hz]
  apply Super.ext <;> simp only [decode, encode] <;> rw [Buffer.word_ofWords (by omega)]
  · exact hw h.inodeBitmapAddr
  · exact hw h.inodeBitmapLen
  · exact hw h.dataBitmapAddr
  · exact hw h.dataBitmapLen
  · exact hw h.inodeRegionAddr
  · exact hw h.inodeRegionLen
  · exact hw h.dataRegionAddr
  · exact hw h.dataRegionLen
  · exact hw h.numInodes
  · exact hw h.numData

end Super

/-! ## Records in a block

`inodeBuf[k]` and `entryBuf[k]` of the unions the code declares. -/

namespace Block

/-- `inodeBuf[k]`. -/
def inode (b : Block) (k : Nat) : Inode := Inode.decode (b.slice (128 * k) 128)

/-- `inodeBuf[k] = i`. -/
def setInode (b : Block) (k : Nat) (i : Inode) : Block := b.blit (128 * k) i.encode

/-- `entryBuf[k]`. -/
def entry (b : Block) (k : Nat) : DirEnt := DirEnt.decode (b.slice (32 * k) 32)

/-- `entryBuf[k] = e`. -/
def setEntry (b : Block) (k : Nat) (e : DirEnt) : Block := b.blit (32 * k) e.encode

/-- The block whose entry `k` is `f k`. -/
def ofEntries (f : Nat → DirEnt) : Block :=
  Buffer.ofFn fun i => (f (i / 32)).encode.get (i % 32)

theorem inode_setInode {b : Block} {k : Nat} {i : Inode} (h : i.Fits) (hk : k < 32) :
    (setInode b k i).inode k = i := by
  rw [inode, setInode, Buffer.slice_blit (by omega), Inode.decode_encode h]

theorem inode_setInode_of_ne {b : Block} {j k : Nat} {i : Inode} (hj : j < 32) (hne : j ≠ k) :
    (setInode b k i).inode j = b.inode j := by
  rw [inode, setInode, Buffer.slice_blit_of_disjoint (by omega) (by omega), inode]

theorem fits_inode (b : Block) (k : Nat) : (b.inode k).Fits := Inode.fits_decode _

/-- A block has no bytes besides those of its inodes. -/
theorem ext_inode {b b' : Block} (h : ∀ k < 32, b.inode k = b'.inode k) : b = b' := by
  apply Buffer.ext_get
  intro i hi
  have hslice : b.slice (128 * (i / 128)) 128 = b'.slice (128 * (i / 128)) 128 := by
    rw [← Inode.encode_decode (b.slice _ _), ← Inode.encode_decode (b'.slice _ _)]
    exact congrArg Inode.encode (h (i / 128) (by omega))
  have hget := congrArg (Buffer.get · (i % 128)) hslice
  rwa [Buffer.get_slice _ _ (by omega), Buffer.get_slice _ _ (by omega),
    show 128 * (i / 128) + i % 128 = i by omega] at hget

theorem setInode_inode (b : Block) {k : Nat} (hk : k < 32) : setInode b k (b.inode k) = b := by
  refine ext_inode fun j hj => ?_
  by_cases hjk : j = k
  · rw [hjk, inode_setInode (fits_inode b k) hk]
  · rw [inode_setInode_of_ne hj hjk]

theorem entry_setEntry {b : Block} {k : Nat} {e : DirEnt} (h : Buffer.FitsInt e.inum)
    (hk : k < 128) : (setEntry b k e).entry k = e := by
  rw [entry, setEntry, Buffer.slice_blit (by omega), DirEnt.decode_encode h]

theorem entry_setEntry_of_ne {b : Block} {j k : Nat} {e : DirEnt} (hj : j < 128) (hne : j ≠ k) :
    (setEntry b k e).entry j = b.entry j := by
  rw [entry, setEntry, Buffer.slice_blit_of_disjoint (by omega) (by omega), entry]

theorem fitsInt_entry (b : Block) (k : Nat) : Buffer.FitsInt (b.entry k).inum :=
  DirEnt.fitsInt_decode _

theorem ofEntries_congr {f f' : Nat → DirEnt} (h : ∀ m < 128, f m = f' m) :
    ofEntries f = ofEntries f' := by
  apply Buffer.ext_get
  intro i hi
  rw [ofEntries, ofEntries, Buffer.get_ofFn_of_lt hi, Buffer.get_ofFn_of_lt hi, h _ (by omega)]

theorem entry_ofEntries {f : Nat → DirEnt} {k : Nat} (h : Buffer.FitsInt (f k).inum)
    (hk : k < 128) : (ofEntries f).entry k = f k := by
  have hslice : (ofEntries f).slice (32 * k) 32 = (f k).encode := by
    apply Buffer.ext_get
    intro i hi
    rw [Buffer.get_slice _ _ hi, ofEntries, Buffer.get_ofFn_of_lt (by omega),
      show (32 * k + i) / 32 = k by omega, show (32 * k + i) % 32 = i by omega]
  rw [entry, hslice, DirEnt.decode_encode h]

end Block

end Gunrock
