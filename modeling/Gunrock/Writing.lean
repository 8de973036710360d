import Gunrock.Reading
import Mathlib.Data.List.GetD

/-!
# Writing a file

`write` on a sound volume: when it succeeds, and the volume it leaves behind.

The new volume is written down in closed form (`Volume.rewrite`), so that everything that
is to be known about it can be computed; that it is sound again, and that only the
contents of the file have changed, is read off from there.
-/

namespace Gunrock

open Disk LocalFileSystem Wp

variable {g : Geometry} {im : Nat → Block} {d : Disk} {v : Volume} {i : Nat}

/-! ## The loops -/

theorem Active.wp_growFile (h : Active g im d v) {n x : Nat} (hx : x + n ≤ 30) {inode : Inode}
    {Q : Option Inode → Disk → Prop}
    (hfull : (v.freeData g).length < n → ∀ d', Idle g d' (g.volume im) → d'.image = im →
      Q none d')
    (hroom : n ≤ (v.freeData g).length → ∀ d',
      Active g im d' (v.setDataBits ((v.freeData g).take n) true) →
      Q (some (inode.setPtrs x n fun y => g.dataBlock ((v.freeData g).getD (y - x) 0))) d') :
    wp (growFile g.super n x inode) Q d := by
  induction n generalizing d v x inode with
  | zero =>
      rw [growFile, wp_pure]
      simpa using hroom (Nat.zero_le _) d (by simpa using h)
  | succ n ih =>
      rw [growFile, wp_bind]
      refine h.wp_allocateData (fun hnil d' hd' him => ?_) fun k ks d' hcons hd' => ?_
      · rw [wp_pure]
        exact hfull (by simp [hnil]) d' hd' him
      · have hk : k < g.numData := (FreeList.head_free hcons).1
        have hfree := freeData_setDataBit hcons
        dsimp only
        rw [wp_bind, g.unsigned_dataBlock hk, wp_setDirect (by omega),
          show (x : Int) + 1 = ((x + 1 : Nat) : Int) from rfl]
        refine ih hd' (by omega) (fun hlt => hfull ?_) fun hle d'' hd'' => ?_
        · rw [hfree] at hlt
          rw [hcons, List.length_cons]
          omega
        · rw [hfree] at hle hd''
          rw [hcons, List.length_cons] at hroom
          have hq := hroom (by omega) d'' (by
            rw [List.take_succ_cons, ← Volume.setDataBits_cons]
            exact hd'')
          rw [← Inode.setPtrs_succ] at hq
          rw [hfree]
          convert hq using 2
          simp only [Nat.sub_self, List.getD_cons_zero]
          refine Inode.setPtrs_congr fun y h1 h2 => ?_
          rw [show y - x = (y - (x + 1)) + 1 by omega, List.getD_cons_succ]

theorem Active.wp_shrinkFile (h : Active g im d v) {n x : Nat} (hx : x + n ≤ 30) {inode : Inode}
    {q : Nat → Nat} (hq : ∀ y, x ≤ y → y < x + n → q y < g.numData ∧
      inode.ptr y = g.dataBlock (q y)) {Q : Inode → Disk → Prop}
    (hQ : ∀ d', Active g im d' (v.setDataBits ((List.range' x n).map q) false) →
      Q (inode.setPtrs x n fun _ => 2 ^ 32 - 1) d') :
    wp (shrinkFile g.super n x inode) Q d := by
  induction n generalizing d v x inode with
  | zero =>
      rw [shrinkFile, wp_pure]
      simpa using hQ d (by simpa using h)
  | succ n ih =>
      obtain ⟨hlt, hptr⟩ := hq x le_rfl (by omega)
      rw [shrinkFile, wp_bind, wp_directAt (by omega), wp_bind, hptr]
      refine h.wp_freeBlock hlt fun d₁ h₁ => ?_
      rw [wp_bind, show Buffer.unsigned (-1) = 2 ^ 32 - 1 from rfl, wp_setDirect (by omega),
        show (x : Int) + 1 = ((x + 1 : Nat) : Int) from rfl]
      refine ih h₁ (by omega) (fun y h1 h2 => ?_) fun d₂ h₂ => ?_
      · rw [Inode.ptr_setPtr_of_ne (by omega)]
        exact hq y (by omega) (by omega)
      · rw [Inode.setPtrs_succ inode x n fun _ => 2 ^ 32 - 1]
        refine hQ d₂ ?_
        rw [List.range'_succ, List.map_cons, ← Volume.setDataBits_cons]
        exact h₂

/-- Block `x` of a file of `size` bytes: the last block is completed from `scratch`. -/
def fileBlock (buf : Nat → UInt8) (size : Nat) (scratch : Block) (x : Nat) : Block :=
  Buffer.ofFn fun k => if 4096 * x + k < size then buf (4096 * x + k) else scratch.get k

/-- The blocks of a file from the `x`-th on, one after the other. -/
def writeBlocks (inode : Inode) (f : Nat → Block) : Nat → Nat → FS PUnit
  | 0, _ => return ⟨⟩
  | n + 1, x => do
    writeBlock (Buffer.signed (inode.ptr x)) (f x)
    writeBlocks inode f n (x + 1)

/-- What `writeData` does, without its counting. -/
theorem writeData_eq (inode : Inode) (scratch : Block) (buf : Nat → UInt8) {size n x : Nat}
    (hn : x + n ≤ 30) (hsize : blocksFor size = x + n) :
    writeData inode scratch n x (fun k => buf (4096 * x + k)) ((size : Int) - 4096 * x) =
      writeBlocks inode (fileBlock buf size scratch) n x := by
  induction n generalizing x with
  | zero => rfl
  | succ n ih =>
      unfold blocksFor at hsize
      have hcast : ((ufsBlockSize : Nat) : Int) = 4096 := rfl
      rw [writeData, if_neg (by omega), writeBlocks, directAt_eq (by omega), pure_bind, pure_bind]
      by_cases hfull : ((ufsBlockSize : Nat) : Int) ≤ (size : Int) - 4096 * x
      · rw [if_pos hfull]
        rw [hcast] at hfull
        have hblk : (Buffer.ofFn fun k => buf (4096 * x + k) : Block) =
            fileBlock buf size scratch x := by
          apply Buffer.ext_get
          intro k hk
          rw [fileBlock, Buffer.get_ofFn_of_lt hk, Buffer.get_ofFn_of_lt hk, if_pos (by omega)]
        have hbuf : (fun k => buf (4096 * x + (ufsBlockSize + k))) =
            fun k => buf (4096 * (x + 1) + k) := by
          funext k
          congr 1
          rw [show ufsBlockSize = 4096 from rfl]
          omega
        have hrest : (size : Int) - 4096 * x - ((ufsBlockSize : Nat) : Int) =
            (size : Int) - 4096 * ((x + 1 : Nat) : Int) := by
          rw [hcast]
          omega
        rw [hblk, hbuf, hrest, ih (by omega) (by unfold blocksFor; omega)]
      · -- less than a block is left, so this is the last one
        rw [if_neg hfull]
        rw [hcast] at hfull
        obtain rfl : n = 0 := by omega
        have hblk : (Buffer.ofFn fun k => if (k : Int) < (size : Int) - 4096 * x then
            buf (4096 * x + k) else scratch.get k : Block) = fileBlock buf size scratch x := by
          apply Buffer.ext_get
          intro k hk
          rw [fileBlock, Buffer.get_ofFn_of_lt hk, Buffer.get_ofFn_of_lt hk]
          exact if_congr (by omega) rfl rfl
        rw [hblk, writeBlocks, bind_pure_unit]

/-- `writeData`, as `write` calls it. -/
theorem writeData_zero (inode : Inode) (scratch : Block) (buf : Nat → UInt8) {size : Nat}
    (hsize : blocksFor size ≤ 30) : writeData inode scratch (blocksFor size) 0 buf size =
      writeBlocks inode (fileBlock buf size scratch) (blocksFor size) 0 := by
  have hzero := writeData_eq inode scratch buf (show 0 + blocksFor size ≤ 30 by omega)
    (Nat.zero_add _).symm
  have hbuf : (fun k => buf (4096 * 0 + k)) = buf := by simp
  rw [hbuf] at hzero
  simpa using hzero

theorem Active.wp_writeBlocks (h : Active g im d v) {inode : Inode} (f : Nat → Block) (n x : Nat)
    {q : Nat → Nat} (hq : ∀ y, x ≤ y → y < x + n → q y < g.numData ∧
      inode.ptr y = g.dataBlock (q y))
    (hinj : ∀ y z, x ≤ y → y < z → z < x + n → q z ≠ q y) {Q : PUnit → Disk → Prop}
    (hQ : ∀ d', Active g im d' (v.setDatas q f x n) → Q ⟨⟩ d') :
    wp (writeBlocks inode f n x) Q d := by
  induction n generalizing d v x with
  | zero =>
      rw [writeBlocks, wp_pure]
      exact hQ d (by simpa using h)
  | succ n ih =>
      obtain ⟨hlt, hptr⟩ := hq x le_rfl (by omega)
      rw [writeBlocks, wp_bind, hptr]
      refine h.wp_writeDataBlock hlt fun d₁ h₁ => ?_
      refine ih h₁ _ (fun y h1 h2 => hq y (by omega) (by omega))
        (fun y z h1 h2 h3 => hinj y z (by omega) h2 (by omega)) fun d₂ h₂ => ?_
      rw [Volume.setDatas_succ _ _ _ fun y h1 h2 => hinj x y le_rfl h1 h2] at h₂
      exact hQ d₂ h₂

/-! ## The volume written

Inode `i` owns `v.blocks i` blocks and is to own `b`.  One of the two differences is zero:
the file grows, or it shrinks. -/

namespace Volume

variable (g : Geometry) (v : Volume) (i b : Nat)

/-- Block `x` of the file: an old one, or one from the free list. -/
def newPtr (x : Nat) : Nat :=
  if x < v.blocks i then v.ptr g i x else (v.freeData g).getD (x - v.blocks i) 0

/-- The blocks the file loses. -/
def gone : List Nat := (List.range' b (v.blocks i - b)).map (v.ptr g i)

/-- The inode with `b` blocks; its size is still the old one. -/
def resizedInode : Inode :=
  ((v.inode i).setPtrs (v.blocks i) (b - v.blocks i)
    fun y => g.dataBlock ((v.freeData g).getD (y - v.blocks i) 0)).setPtrs b (v.blocks i - b)
    fun _ => 2 ^ 32 - 1

/-- The data bitmap when the file has `b` blocks. -/
def resized : Volume :=
  (v.setDataBits ((v.freeData g).take (b - v.blocks i)) true).setDataBits (v.gone g i b) false

/-- The volume after `size` bytes from `buf` were written to file `i`. -/
def rewrite (buf : Nat → UInt8) (size : Nat) (scratch : Block) : Volume :=
  ((v.resized g i (blocksFor size)).setInode i
    { v.resizedInode g i (blocksFor size) with size := size }).setDatas
    (v.newPtr g i) (fileBlock buf size scratch) 0 (blocksFor size)

end Volume

theorem Volume.newPtr_of_lt {x : Nat} (h : x < v.blocks i) : v.newPtr g i x = v.ptr g i x :=
  if_pos h

/-- A new block comes from the free list. -/
theorem Volume.newPtr_free {b x : Nat} (hroom : b - v.blocks i ≤ (v.freeData g).length)
    (hx : v.blocks i ≤ x) (hxb : x < b) :
    v.newPtr g i x ∈ (v.freeData g).take (b - v.blocks i) := by
  rw [Volume.newPtr, if_neg (by omega), List.getD_eq_getElem _ _ (by omega)]
  exact List.mem_take_iff_getElem.mpr ⟨x - v.blocks i, by omega, rfl⟩

section Rewrite

variable {b : Nat}

theorem GoodInode.newPtr_lt (hg : GoodInode g v i)
    (hroom : b - v.blocks i ≤ (v.freeData g).length) {x : Nat} (hx : x < b) :
    v.newPtr g i x < g.numData := by
  rcases Nat.lt_or_ge x (v.blocks i) with hlt | hge
  · rw [Volume.newPtr_of_lt hlt]
    exact hg.ptr_lt hlt
  · exact (Volume.mem_freeData.mp (List.mem_of_mem_take (Volume.newPtr_free hroom hge hx))).1

/-- The blocks of the file: the old ones that it keeps, then the new ones. -/
theorem Volume.map_newPtr (hroom : b - v.blocks i ≤ (v.freeData g).length) :
    (List.range b).map (v.newPtr g i) = (List.range (min b (v.blocks i))).map (v.ptr g i) ++
      (v.freeData g).take (b - v.blocks i) := by
  apply List.ext_getElem
  · simp only [List.length_map, List.length_append, List.length_range, List.length_take]
    omega
  · intro x hx _
    rw [List.length_map, List.length_range] at hx
    simp only [List.getElem_map, List.getElem_range, List.getElem_append, List.length_map,
      List.length_range]
    split
    · exact Volume.newPtr_of_lt (by omega)
    · rw [Volume.newPtr, if_neg (by omega), List.getD_eq_getElem _ _ (by omega),
        List.getElem_take]
      congr 1
      omega

theorem Sound.newPtr_injective (hs : Sound g v) (hb : v.inodeBit i = true)
    (hroom : b - v.blocks i ≤ (v.freeData g).length) {x y : Nat} (hx : x < b) (hy : y < b)
    (heq : v.newPtr g i x = v.newPtr g i y) : x = y := by
  have hmixed : ∀ {x y}, x < v.blocks i → v.blocks i ≤ y → y < b →
      v.newPtr g i x ≠ v.newPtr g i y := by
    intro x y hx hy hyb
    have hfree := Volume.newPtr_free hroom hy hyb
    rw [Volume.newPtr_of_lt hx]
    exact hs.ptr_ne_free hb hx (Volume.mem_freeData.mp (List.mem_of_mem_take hfree)).2
  rcases Nat.lt_or_ge x (v.blocks i) with hxa | hxa <;>
    rcases Nat.lt_or_ge y (v.blocks i) with hya | hya
  · rw [Volume.newPtr_of_lt hxa, Volume.newPtr_of_lt hya] at heq
    exact hs.ptr_injective hb hxa hya heq
  · exact absurd heq (hmixed hxa hya hy)
  · exact absurd heq.symm (hmixed hya hxa hx)
  · rw [Volume.newPtr, Volume.newPtr, if_neg (by omega), if_neg (by omega),
      List.getD_eq_getElem _ _ (by omega), List.getD_eq_getElem _ _ (by omega)] at heq
    have hnodup : (v.freeData g).Nodup := FreeList.nodup_free
    have := hnodup.getElem_inj_iff.mp heq
    omega

/-- The pointers of the resized inode. -/
theorem GoodInode.ptr_resizedInode (hg : GoodInode g v i) (hb30 : b ≤ 30) {x : Nat}
    (hx : x < b) : (v.resizedInode g i b).ptr x = g.dataBlock (v.newPtr g i x) := by
  have hle := hg.blocks_le
  rw [Volume.resizedInode, Inode.ptr_setPtrs (by omega), if_neg (by omega),
    Inode.ptr_setPtrs (by omega)]
  rcases Nat.lt_or_ge x (v.blocks i) with hlt | hge
  · rw [if_neg (by omega), Volume.newPtr_of_lt hlt, hg.dataBlock_ptr hlt]
  · rw [if_pos (by omega), Volume.newPtr, if_neg (by omega)]

/-- `resize`: either there are not enough free blocks and the transaction is undone, or
the file has its blocks. -/
theorem Active.wp_resize (h : Active g im d v) (hg : GoodInode g v i) (hb30 : b ≤ 30)
    {Q : Option Inode → Disk → Prop}
    (hfull : (v.freeData g).length < b - v.blocks i → ∀ d', Idle g d' (g.volume im) →
      d'.image = im → Q none d')
    (hroom : b - v.blocks i ≤ (v.freeData g).length → ∀ d',
      Active g im d' (v.resized g i b) → Q (some (v.resizedInode g i b)) d') :
    wp (resize g.super (v.inode i) (v.blocks i) b) Q d := by
  have hle := hg.blocks_le
  rw [resize]
  by_cases hlt : v.blocks i < b
  · rw [if_pos (by omega), show ((b : Int) - (v.blocks i : Int)).toNat = b - v.blocks i by omega]
    refine h.wp_growFile (by omega) hfull fun hle d' hd' => ?_
    have hzero : v.blocks i - b = 0 := by omega
    have hq := hroom hle d' (by simpa [Volume.resized, Volume.gone, hzero] using hd')
    rwa [Volume.resizedInode, hzero, Inode.setPtrs_zero] at hq
  · rw [if_neg (by omega), wp_bind,
      show ((v.blocks i : Int) - (b : Int)).toNat = v.blocks i - b by omega]
    refine h.wp_shrinkFile (q := v.ptr g i) (by omega)
      (fun y h1 h2 => ⟨hg.ptr_lt (by omega), (hg.dataBlock_ptr (by omega)).symm⟩) fun d' hd' => ?_
    have hzero : b - v.blocks i = 0 := by omega
    have hq := hroom (by omega) d' (by simpa [Volume.resized, Volume.gone, hzero] using hd')
    rw [wp_pure]
    rwa [Volume.resizedInode, hzero, Inode.setPtrs_zero] at hq

end Rewrite

theorem GoodInode.fits_resizedInode (hg : GoodInode g v i) (hf : (v.inode i).Fits) {b size : Nat}
    (hroom : b - v.blocks i ≤ (v.freeData g).length) (hsize : size ≤ maxFileSize) :
    ({ v.resizedInode g i b with size := size } : Inode).Fits := by
  have hdata := g.bounds
  unfold Counts.totalBlocks at hdata
  have hresized : (v.resizedInode g i b).Fits := by
    refine (hf.setPtrs fun y h1 h2 => ?_).setPtrs fun y _ _ => by omega
    have hlt := hg.newPtr_lt (b := b) hroom (x := y) (by omega)
    rw [Volume.newPtr, if_neg (by omega)] at hlt
    unfold Geometry.dataBlock
    omega
  simp only [maxFileSize, directPtrs, ufsBlockSize] at hsize
  refine ⟨hresized.type, ?_, hresized.direct⟩
  constructor <;> dsimp only <;> omega

/-- A write of `size` bytes to inode `i` goes through. -/
structure CanWrite (g : Geometry) (v : Volume) (i size : Nat) : Prop where
  bit : v.inodeBit i = true
  type : (v.inode i).type = ufsRegularFile
  pos : 0 < size
  le : size ≤ maxFileSize
  room : blocksFor size - v.blocks i ≤ (v.freeData g).length

/-- `write` to a file, with a size that is allowed: it writes all bytes, or it fails for
lack of space and changes nothing. -/
theorem wp_write_file (h : Idle g d v) (hs : Sound g v) (hb : v.inodeBit i = true)
    (ht : (v.inode i).type = ufsRegularFile) (buf : Nat → UInt8) {size : Nat} (h0 : 0 < size)
    (hsize : size ≤ maxFileSize) {Q : Int → Disk → Prop}
    (hfull : (v.freeData g).length < blocksFor size - v.blocks i → ∀ d', Idle g d' v →
      d'.image = d.image → Q (-eNotEnoughSpace) d')
    (hroom : CanWrite g v i size → ∀ scratch d',
      (v.rewrite g i buf size scratch).TableBlock (i / 32) scratch →
      Idle g d' (v.rewrite g i buf size scratch) → Q size d') :
    wp (write i (some buf) size) Q d := by
  have hg := hs.good hb
  have hmax : size ≤ 122880 := hsize
  have hb30 : blocksFor size ≤ 30 := blocksFor_le (by exact_mod_cast hsize)
  have hcnt : blockCount (size : Int) = blocksFor size := blockCount_eq (by omega) (by omega)
  dsimp only [write]
  rw [hcnt, if_neg (by omega), if_neg (by simp only [directPtrs]; omega), wp_bind,
    wp_stat h.toHolds, hs.stat_of_bit hb]
  dsimp only
  rw [if_neg (by simpa using ht), wp_bind, wp_readSuperBlock h.toHolds, wp_bind]
  refine h.wp_beginTransaction fun d₁ h₁ => ?_
  rw [hg.blockCount, wp_bind]
  refine h₁.wp_resize hg hb30 (fun hlt d₂ h₂ him => ?_) fun hle d₂ h₂ => ?_
  · rw [h.volume] at h₂
    rw [wp_pure]
    exact hfull hlt d₂ h₂ him
  · dsimp only
    rw [wp_bind, Int.toNat_natCast]
    refine h₂.wp_updateInode (hs.inode_lt hb)
      (hg.fits_resizedInode (h.toHolds.fits i) hle hsize) fun scratch d₃ htable h₃ => ?_
    rw [wp_bind, Int.toNat_natCast, writeData_zero _ _ _ hb30]
    have hptr : ∀ y < blocksFor size,
        ({ v.resizedInode g i (blocksFor size) with size := size } : Inode).ptr y =
          g.dataBlock (v.newPtr g i y) := fun y hy => hg.ptr_resizedInode hb30 hy
    refine h₃.wp_writeBlocks (fileBlock buf size scratch) (blocksFor size) 0 (q := v.newPtr g i)
      (fun y _ hy => ⟨hg.newPtr_lt hle (by omega), hptr y (by omega)⟩)
      (fun y z _ hyz hz heq => ?_) fun d₄ h₄ => ?_
    · have := hs.newPtr_injective hb hle (by omega) (by omega) heq
      omega
    · rw [wp_bind]
      refine h₄.wp_commit fun d₅ h₅ _ => ?_
      rw [wp_pure]
      exact hroom ⟨hb, ht, h0, hsize, hle⟩ scratch d₅ htable h₅

/-! ## The volume written is sound -/

namespace CanWrite

variable {size : Nat} {buf : Nat → UInt8} {scratch : Block}

theorem blocksFor_le (hw : CanWrite g v i size) : blocksFor size ≤ 30 :=
  Gunrock.blocksFor_le (by exact_mod_cast hw.le)

theorem type_ne (hw : CanWrite g v i size) : (v.inode i).type ≠ ufsDirectory := by
  rw [hw.type]
  decide

theorem inode_self : (v.rewrite g i buf size scratch).inode i =
    { v.resizedInode g i (blocksFor size) with size := size } := by
  simp [Volume.rewrite]

theorem inode_of_ne {j : Nat} (hj : j ≠ i) :
    (v.rewrite g i buf size scratch).inode j = v.inode j := by
  simp [Volume.rewrite, Volume.resized, hj]

theorem blocks_self : (v.rewrite g i buf size scratch).blocks i = blocksFor size := by
  rw [Volume.blocks, inode_self]

theorem ptr_self (hw : CanWrite g v i size) (hs : Sound g v) {x : Nat} (hx : x < blocksFor size) :
    (v.rewrite g i buf size scratch).ptr g i x = v.newPtr g i x := by
  have hptr := (hs.good hw.bit).ptr_resizedInode hw.blocksFor_le hx
  have hinode : (v.rewrite g i buf size scratch).inode i =
    { v.resizedInode g i (blocksFor size) with size := size } := inode_self
  rw [Volume.ptr, hinode]
  have hsame : ({ v.resizedInode g i (blocksFor size) with size := size } : Inode).ptr x =
    (v.resizedInode g i (blocksFor size)).ptr x := rfl
  rw [hsame, hptr, Geometry.dataBlock]
  omega

theorem data_newPtr (hw : CanWrite g v i size) (hs : Sound g v) {x : Nat}
    (hx : x < blocksFor size) :
    (v.rewrite g i buf size scratch).data (v.newPtr g i x) = fileBlock buf size scratch x :=
  Volume.data_setDatas _ _ _
    (fun _ _ hz heq => hs.newPtr_injective hw.bit hw.room (by omega) hx heq) (Nat.zero_le _)
    (by omega)

/-- Other inodes keep their blocks. -/
theorem same (hw : CanWrite g v i size) (hs : Sound g v) {j : Nat} (hj : v.inodeBit j = true)
    (hne : j ≠ i) : Same g v (v.rewrite g i buf size scratch) j := by
  refine ⟨rfl, inode_of_ne hne, fun x hx => ?_⟩
  refine (Volume.data_setDatas_of_ne _ _ _ _ fun y _ hy => ?_).trans rfl
  rcases Nat.lt_or_ge y (v.blocks i) with hlt | hge
  · rw [Volume.newPtr_of_lt hlt]
    exact hs.ptr_ne hw.bit hj hne.symm hlt hx
  · have hfree := Volume.newPtr_free hw.room hge (by omega)
    exact (hs.ptr_ne_free hj hx
      (Volume.mem_freeData.mp (List.mem_of_mem_take hfree)).2).symm

theorem content (hw : CanWrite g v i size) (hs : Sound g v) :
    (v.rewrite g i buf size scratch).content g i = (List.range size).map buf := by
  rw [Volume.content, inode_self]
  apply List.map_congr_left
  intro k hk
  have hk : k < size := List.mem_range.mp hk
  have hx : k / 4096 < blocksFor size := by
    unfold blocksFor
    omega
  rw [Volume.byte, hw.ptr_self hs hx, hw.data_newPtr hs hx, fileBlock,
    Buffer.get_ofFn_of_lt (by omega), if_pos (by omega)]
  congr 1
  omega

theorem good (hw : CanWrite g v i size) (hs : Sound g v) :
    GoodInode g (v.rewrite g i buf size scratch) i := by
  have hg := hs.good hw.bit
  refine ⟨?_, ?_, ?_, fun x hx => ?_, fun ht => ?_⟩
  · rw [inode_self]
    exact hg.type
  · rw [inode_self]
    exact Int.natCast_nonneg _
  · rw [inode_self]
    exact Int.ofNat_le.mpr hw.le
  · rw [blocks_self] at hx
    rw [inode_self]
    have hptr := hg.ptr_resizedInode hw.blocksFor_le hx
    have hlt := hg.newPtr_lt hw.room hx
    have hsame : ({ v.resizedInode g i (blocksFor size) with size := size } : Inode).ptr x =
      (v.resizedInode g i (blocksFor size)).ptr x := rfl
    rw [hsame, hptr]
    unfold Counts.totalBlocks Geometry.dataBlock
    omega
  · rw [inode_self] at ht
    exact absurd ht hw.type_ne

theorem owned_self (hw : CanWrite g v i size) (hs : Sound g v) :
    (v.rewrite g i buf size scratch).owned g i =
      (List.range (blocksFor size)).map (v.newPtr g i) := by
  have hbit : (v.rewrite g i buf size scratch).inodeBit i = true := hw.bit
  rw [Volume.owned, if_pos hbit, blocks_self]
  exact List.map_congr_left fun x hx => hw.ptr_self hs (List.mem_range.mp hx)

theorem owned_eq (hw : CanWrite g v i size) (hs : Sound g v) :
    (v.rewrite g i buf size scratch).owned g = Function.update (v.owned g) i
      ((List.range (blocksFor size)).map (v.newPtr g i)) := by
  funext j
  by_cases hj : j = i
  · subst hj
    rw [Function.update_self, hw.owned_self hs]
  · rw [Function.update_of_ne hj]
    cases hb : v.inodeBit j with
    | true => exact (hw.same hs hb hj).owned
    | false =>
        have hb' : (v.rewrite g i buf size scratch).inodeBit j = false := hb
        rw [Volume.owned_of_clear hb, Volume.owned_of_clear hb']

/-- A block is in use if it was taken, or was in use and has not gone. -/
theorem dataBit_iff (hw : CanWrite g v i size) (hs : Sound g v) (k : Nat) :
    (v.rewrite g i buf size scratch).dataBit k = true ↔
      k ∈ (v.freeData g).take (blocksFor size - v.blocks i) ∨
        (if k ∈ v.gone g i (blocksFor size) then false else v.dataBit k) = true := by
  have hbit : (v.rewrite g i buf size scratch).dataBit k =
      if k ∈ v.gone g i (blocksFor size) then false
      else if k ∈ (v.freeData g).take (blocksFor size - v.blocks i) then true
      else v.dataBit k := rfl
  rw [hbit]
  by_cases hk : k ∈ v.gone g i (blocksFor size)
  · -- a block that goes was in use, so it is not among the new ones
    obtain ⟨x, -, hx, rfl⟩ := Volume.mem_tail.mp hk
    have hnew : v.ptr g i x ∉ (v.freeData g).take (blocksFor size - v.blocks i) := fun hmem =>
      hs.ptr_ne_free hw.bit hx (Volume.mem_freeData.mp (List.mem_of_mem_take hmem)).2 rfl
    simp [hk, hnew]
  · by_cases hnew : k ∈ (v.freeData g).take (blocksFor size - v.blocks i)
    · simp [hk, hnew]
    · simp [hk, hnew]

theorem owned (hw : CanWrite g v i size) (hs : Sound g v) :
    Owned (v.rewrite g i buf size scratch).dataBit ((v.rewrite g i buf size scratch).owned g) := by
  -- first the blocks that go are given back, then the new ones are taken
  have hgive : Owned (fun k => if k ∈ v.gone g i (blocksFor size) then false else v.dataBit k)
      (Function.update (v.owned g) i
        ((List.range (min (blocksFor size) (v.blocks i))).map (v.ptr g i))) :=
    hs.give hw.bit _ fun _ => rfl
  have htake : Owned (v.rewrite g i buf size scratch).dataBit (Function.update (Function.update
      (v.owned g) i ((List.range (min (blocksFor size) (v.blocks i))).map (v.ptr g i))) i
      (Function.update (v.owned g) i
        ((List.range (min (blocksFor size) (v.blocks i))).map (v.ptr g i)) i ++
        (v.freeData g).take (blocksFor size - v.blocks i))) := by
    refine hgive.take (FreeList.nodup_free.sublist (List.take_sublist _ _)) (fun k hk => ?_)
      fun k => ?_
    · have hfree := (Volume.mem_freeData.mp (List.mem_of_mem_take hk)).2
      simp [hfree]
    · exact hw.dataBit_iff hs k
  rwa [Function.update_self, Function.update_idem, ← Volume.map_newPtr hw.room,
    ← hw.owned_eq hs] at htake

/-- A list as what `write` is given, a pointer to its bytes. -/
theorem map_getD_range (content : Bytes) :
    (List.range content.length).map (fun i => content.getD i 0) = content := by
  refine List.ext_getElem (by simp) fun k h₁ h₂ => ?_
  rw [List.getElem_map, List.getElem_range, List.getD_eq_getElem _ _ h₂]

/-- In terms of nodes, the file has new contents and nothing else has changed. -/
theorem node_eq (hw : CanWrite g v i size) (hs : Sound g v) :
    (v.rewrite g i buf size scratch).node g =
      (v.node g).setFile i ((List.range size).map buf) := by
  funext j
  by_cases hj : j = i
  · subst hj
    have hbit : (v.rewrite g j buf size scratch).inodeBit j = true := hw.bit
    have ht : ((v.rewrite g j buf size scratch).inode j).type ≠ ufsDirectory := by
      rw [inode_self]
      exact hw.type_ne
    rw [Volume.node_of_file hbit ht, hw.content hs, Namespace.setFile, Function.update_self]
  · rw [Namespace.setFile, Function.update_of_ne hj]
    cases hb : v.inodeBit j with
    | true => exact (hw.same hs hb hj).node hs.good
    | false =>
        have hb' : (v.rewrite g i buf size scratch).inodeBit j = false := hb
        rw [Volume.node_of_clear hb, Volume.node_of_clear hb']

theorem sound (hw : CanWrite g v i size) (hs : Sound g v) :
    Sound g (v.rewrite g i buf size scratch) where
  inode_lt hb := hs.inode_lt hb
  good := by
    intro j hj
    have hj : v.inodeBit j = true := hj
    by_cases hji : j = i
    · subst hji
      exact hw.good hs
    · exact (hw.same hs hj hji).good (hs.good hj)
  owned := hw.owned hs
  tree := by
    rw [hw.node_eq hs]
    exact hs.tree.setFile (Volume.node_of_file hw.bit hw.type_ne)

end CanWrite

/-! ## All calls of `write` -/

/-- Close to the end of an `int`, the number of blocks is negative. -/
theorem blockCount_neg {size : Int} (h : 2 ^ 31 - 4096 < size) (hlt : size < 2 ^ 31) :
    blockCount size < 0 := by
  obtain ⟨k, hk, hge⟩ : ∃ k : Int, int32 (size + ((ufsBlockSize : Nat) - 1)) = -k ∧ 4096 ≤ k := by
    have hmax : ((ufsBlockSize : Nat) : Int) - 1 = 4095 := rfl
    refine ⟨2 ^ 32 - (size + 4095), ?_, by omega⟩
    rw [hmax, int32, Buffer.signed, Buffer.unsigned, if_neg (by omega)]
    omega
  rw [blockCount, hk, Int.neg_tdiv, Int.tdiv_eq_ediv_of_nonneg (by omega)]
  simp only [ufsBlockSize]
  omega

/-- A negative number of blocks leads outside the array of pointers. -/
theorem run_resize_neg {super : Super} {inode : Inode} {m cnt : Int} (hm : 0 ≤ m)
    (hcnt : cnt < 0) : (resize super inode m cnt).run d = .error .undefined := by
  obtain ⟨k, hk⟩ : ∃ k, (m - cnt).toNat = k + 1 := ⟨(m - cnt).toNat - 1, by omega⟩
  rw [resize, if_neg (by omega), hk, shrinkFile, directAt, if_neg (by omega)]
  rfl

theorem wlp_resize_neg {super : Super} {inode : Inode} {m cnt : Int} (hm : 0 ≤ m) (hcnt : cnt < 0)
    {Q : Option Inode → Disk → Prop} : wlp (resize super inode m cnt) Q d := by
  intro _ _ hrun
  rw [run_resize_neg hm hcnt] at hrun
  cases hrun

/-- `write` refuses a call before it starts a transaction. -/
theorem wp_write_refused (h : Idle g d v) (hs : Sound g v) {n : Int}
    {buf : Option (Nat → UInt8)} {size : Int} (hsize : size ≤ 2 ^ 31 - 4096)
    (hno : ∀ i : Nat, n = i → v.inodeBit i = true → (v.inode i).type = ufsRegularFile →
      buf.isSome → 0 < size → ¬ size ≤ maxFileSize) {Q : Int → Disk → Prop}
    (hQ : ∀ r < 0, Q r d) : wp (write n buf size) Q d := by
  cases buf with
  | none =>
      rw [write, wp_pure]
      exact hQ _ (by decide)
  | some buf =>
      dsimp only [write]
      rcases Int.lt_or_le 0 size with hpos | hneg
      · rw [if_neg (by omega)]
        rw [blockCount_eq (by omega) hsize]
        by_cases hcnt : ((directPtrs : Nat) : Int) < (blocksFor size : Nat)
        · rw [if_pos hcnt, wp_pure]
          exact hQ _ (by decide)
        · rw [if_neg hcnt, wp_bind, wp_stat h.toHolds]
          have hmax : size ≤ ((maxFileSize : Nat) : Int) := by
            simp only [directPtrs, maxFileSize, ufsBlockSize] at hcnt ⊢
            unfold blocksFor at hcnt
            omega
          rcases hs.stat_cases n with ⟨i, rfl, hb, hstat⟩ | ⟨-, hstat⟩
          · rw [hstat]
            dsimp only
            have ht : (v.inode i).type ≠ ufsRegularFile :=
              fun ht => hno i rfl hb ht rfl hpos hmax
            rw [if_pos ht, wp_pure]
            exact hQ _ (by decide)
          · rw [hstat, wp_pure]
            exact hQ _ (by decide)
      · rw [if_pos hneg, wp_pure]
        exact hQ _ (by decide)

/-- Every call of `write` returns: it fails and changes nothing, or it has written the
file. -/
theorem wp_write (h : Idle g d v) (hs : Sound g v) {n : Int} {buf : Option (Nat → UInt8)}
    {size : Int} (hsize : size ≤ 2 ^ 31 - 4096) {Q : Int → Disk → Prop}
    (hfail : ∀ r < 0, (∀ i m : Nat, n = i → buf.isSome → size = m → ¬ CanWrite g v i m) →
      ∀ d', Idle g d' v → d'.image = d.image → Q r d')
    (hok : ∀ (i m : Nat) f scratch d', n = i → buf = some f → size = m → CanWrite g v i m →
      (v.rewrite g i f m scratch).TableBlock (i / 32) scratch →
      Idle g d' (v.rewrite g i f m scratch) → Q size d') :
    wp (write n buf size) Q d := by
  by_cases hcan : ∃ i : Nat, n = i ∧ v.inodeBit i = true ∧ (v.inode i).type = ufsRegularFile ∧
      buf.isSome ∧ 0 < size ∧ size ≤ maxFileSize
  · obtain ⟨i, rfl, hb, ht, hbuf, hpos, hmax⟩ := hcan
    obtain ⟨f, rfl⟩ := Option.isSome_iff_exists.mp hbuf
    obtain ⟨m, rfl⟩ := Int.eq_ofNat_of_zero_le (Int.le_of_lt hpos)
    refine wp_write_file h hs hb ht f (by omega) (Int.ofNat_le.mp hmax) (fun hlt d' hd' him => ?_)
      fun hw scratch d' ht hd' => hok i m f scratch d' rfl rfl rfl hw ht hd'
    refine hfail _ (by decide) (fun i' m' hi _ hm hw => ?_) d' hd' him
    obtain rfl : i = i' := by omega
    obtain rfl : m = m' := by omega
    exact absurd hw.room (by omega)
  · refine wp_write_refused h hs hsize (fun i hn hb ht hbuf hpos hmax => hcan ?_)
      fun r hr => hfail r hr (fun i m hn hbuf hm hw => hcan ?_) d h rfl
    · exact ⟨i, hn, hb, ht, hbuf, hpos, hmax⟩
    · have hpos := hw.pos
      have hle := hw.le
      exact ⟨i, hn, hw.bit, hw.type, hbuf, by omega, hm ▸ Int.ofNat_le.mpr hle⟩

end Gunrock
