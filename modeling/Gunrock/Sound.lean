import Gunrock.Library.Namespace
import Gunrock.Library.Ownership
import Gunrock.Mounted

/-!
# Sound volumes

A volume that the file system keeps in order.  What an inode means is a `Node`: a file
with its bytes, or a directory with its parent and its entries, which is how the claims of
this development speak about it.  `Sound` collects what makes that reading right:

* each allocated inode is well formed, and a directory's slots are in order;
* the data bitmap is exact (`Owned`);
* the nodes form a tree (`Namespace.IsTree`).

An inode's part of all this depends on the inode, its bit and the blocks it owns, and on
nothing else: `Same` names that, and what does not touch an inode keeps its part.
-/

namespace Gunrock

/-- How many blocks hold `size` bytes. -/
def blocksFor (size : Int) : Nat := (size.toNat + 4095) / 4096

theorem blockCount_eq {size : Int} (h0 : 0 ≤ size) (h : size ≤ 2 ^ 31 - 4096) :
    LocalFileSystem.blockCount size = blocksFor size := by
  have hfits : Buffer.FitsInt (size + ((ufsBlockSize : Nat) - 1)) := by
    constructor <;> simp only [ufsBlockSize] <;> omega
  rw [LocalFileSystem.blockCount, int32_of_fits hfits, blocksFor]
  rw [Int.tdiv_eq_ediv_of_nonneg (by simp only [ufsBlockSize]; omega)]
  simp only [ufsBlockSize]
  omega

theorem blocksFor_le {size : Int} (h : size ≤ maxFileSize) : blocksFor size ≤ 30 := by
  simp only [maxFileSize, directPtrs, ufsBlockSize] at h
  unfold blocksFor
  omega

namespace Volume

variable (g : Geometry) (v : Volume)

/-- The data block that direct pointer `x` of inode `i` names. -/
def ptr (i x : Nat) : Nat := (v.inode i).ptr x - g.dataRegionAddr

/-- How many blocks inode `i` owns. -/
def blocks (i : Nat) : Nat := blocksFor (v.inode i).size

/-- The data blocks inode `i` owns. -/
def owned (i : Nat) : List Nat :=
  if v.inodeBit i then (List.range (v.blocks i)).map (v.ptr g i) else []

/-! ## Directories and files -/

/-- Slot `k` of directory `i`. -/
def entry (i k : Nat) : DirEnt := (v.data (v.ptr g i (k / 128))).entry (k % 128)

/-- How many slots of directory `i` are within its size. -/
def count (i : Nat) : Nat := ((v.inode i).size / 32).toNat

/-- The entries of directory `i`, `.` and `..` included. -/
def entries (i : Nat) : List (Bytes × Nat) :=
  (List.range (v.count i)).map fun k => ((v.entry g i k).cname, (v.entry g i k).inum.toNat)

/-- Byte `k` of file `i`. -/
def byte (i k : Nat) : UInt8 := (v.data (v.ptr g i (k / 4096))).get (k % 4096)

/-- The contents of file `i`. -/
def content (i : Nat) : Bytes := (List.range (v.inode i).size.toNat).map (v.byte g i)

theorem length_content (i : Nat) : (v.content g i).length = (v.inode i).size.toNat := by
  simp [content]

/-- What inode `i` is, if it is allocated. -/
def node : Namespace Nat Bytes Bytes := fun i =>
  if v.inodeBit i then
    if (v.inode i).type = ufsDirectory then
      some (.dir (v.entry g i 1).inum.toNat ((v.entries g i).drop 2))
    else some (.file (v.content g i))
  else none

end Volume

/-! ## Well-formed inodes -/

/-- An entry other than `.` and `..`. -/
structure LiveEntry (e : DirEnt) : Prop where
  inum_nonneg : 0 ≤ e.inum
  length_lt : e.cname.length < dirEntNameSize
  ne_dot : e.cname ≠ dot
  ne_dotdot : e.cname ≠ dotdot

/-- The slots of a directory: `.`, `..`, live entries up to its size, and unused slots from
there to the end of its last block. -/
structure GoodSlots (g : Geometry) (v : Volume) (i : Nat) : Prop where
  size_dvd : 32 ∣ (v.inode i).size
  size_ge : 64 ≤ (v.inode i).size
  self : (v.entry g i 0).cname = dot ∧ (v.entry g i 0).inum = i
  parent : (v.entry g i 1).cname = dotdot ∧ 0 ≤ (v.entry g i 1).inum
  live : ∀ k, 2 ≤ k → k < v.count i → LiveEntry (v.entry g i k)
  stale : ∀ k, v.count i ≤ k → k < 128 * v.blocks i → (v.entry g i k).inum = -1

/-- A well-formed inode. -/
structure GoodInode (g : Geometry) (v : Volume) (i : Nat) : Prop where
  type : (v.inode i).type = ufsDirectory ∨ (v.inode i).type = ufsRegularFile
  size_nonneg : 0 ≤ (v.inode i).size
  size_le : (v.inode i).size ≤ maxFileSize
  region : ∀ x < v.blocks i,
    g.dataRegionAddr ≤ (v.inode i).ptr x ∧ (v.inode i).ptr x < g.totalBlocks
  slots : (v.inode i).type = ufsDirectory → GoodSlots g v i

/-- What the file system keeps true of a volume. -/
structure Sound (g : Geometry) (v : Volume) : Prop where
  inode_lt : ∀ {i}, v.inodeBit i = true → i < g.numInodes
  good : ∀ {i}, v.inodeBit i = true → GoodInode g v i
  owned : Owned v.dataBit (v.owned g)
  tree : (v.node g).IsTree 0

variable {g : Geometry} {v v' : Volume} {i : Nat}

/-! ## Reading an inode off -/

theorem GoodInode.blocks_le (h : GoodInode g v i) : v.blocks i ≤ 30 := blocksFor_le h.size_le

theorem GoodInode.blockCount (h : GoodInode g v i) :
    LocalFileSystem.blockCount (v.inode i).size = v.blocks i := by
  have hle := h.size_le
  simp only [maxFileSize, directPtrs, ufsBlockSize] at hle
  exact blockCount_eq h.size_nonneg (by omega)

theorem GoodInode.ptr_lt (h : GoodInode g v i) {x : Nat} (hx : x < v.blocks i) :
    v.ptr g i x < g.numData := by
  have hr := h.region x hx
  unfold Counts.totalBlocks at hr
  unfold Volume.ptr
  omega

theorem GoodInode.dataBlock_ptr (h : GoodInode g v i) {x : Nat} (hx : x < v.blocks i) :
    g.dataBlock (v.ptr g i x) = (v.inode i).ptr x := by
  have hr := h.region x hx
  unfold Geometry.dataBlock Volume.ptr
  omega

theorem GoodSlots.count_ge (h : GoodSlots g v i) : 2 ≤ v.count i := by
  have hge := h.size_ge
  unfold Volume.count
  omega

theorem GoodSlots.size_eq (h : GoodSlots g v i) : (v.inode i).size = 32 * v.count i := by
  obtain ⟨n, hn⟩ := h.size_dvd
  have hge := h.size_ge
  unfold Volume.count
  omega

/-- The blocks of a directory hold its slots, and the last one is needed. -/
theorem GoodSlots.blocks_eq (h : GoodSlots g v i) : v.blocks i = (v.count i + 127) / 128 := by
  have hsize := h.size_eq
  unfold Volume.blocks blocksFor
  omega

theorem Volume.count_le_blocks (v : Volume) (i : Nat) : v.count i ≤ 128 * v.blocks i := by
  unfold Volume.count Volume.blocks blocksFor
  omega

@[simp] theorem Volume.length_entries (v : Volume) (i : Nat) :
    (v.entries g i).length = v.count i := by
  simp [Volume.entries]

theorem Volume.node_of_clear (h : v.inodeBit i = false) : v.node g i = none := by
  simp [Volume.node, h]

theorem Volume.node_of_dir (h : v.inodeBit i = true) (ht : (v.inode i).type = ufsDirectory) :
    v.node g i = some (.dir (v.entry g i 1).inum.toNat ((v.entries g i).drop 2)) := by
  rw [Volume.node, if_pos h, if_pos ht]

theorem Volume.node_of_file (h : v.inodeBit i = true) (ht : (v.inode i).type ≠ ufsDirectory) :
    v.node g i = some (.file (v.content g i)) := by
  rw [Volume.node, if_pos h, if_neg ht]

theorem Volume.node_eq_none : v.node g i = none ↔ v.inodeBit i = false := by
  constructor
  · intro h
    by_contra hb
    rw [Bool.not_eq_false] at hb
    unfold Volume.node at h
    rw [if_pos hb] at h
    split at h <;> cases h
  · exact Volume.node_of_clear

theorem Volume.bit_of_node {n : Node Nat Bytes Bytes} (h : v.node g i = some n) :
    v.inodeBit i = true := by
  by_contra hb
  rw [Bool.not_eq_true] at hb
  rw [Volume.node_of_clear hb] at h
  cases h

theorem Volume.dir_of_node {p : Nat} {es : List (Bytes × Nat)}
    (h : v.node g i = some (.dir p es)) : (v.inode i).type = ufsDirectory := by
  by_contra ht
  rw [Volume.node_of_file (Volume.bit_of_node h) ht] at h
  cases h

theorem Volume.file_of_node {c : Bytes} (h : v.node g i = some (.file c)) :
    (v.inode i).type ≠ ufsDirectory ∧ v.content g i = c := by
  have hb := Volume.bit_of_node h
  by_cases ht : (v.inode i).type = ufsDirectory
  · rw [Volume.node_of_dir hb ht] at h
    cases h
  · rw [Volume.node_of_file hb ht] at h
    cases h
    exact ⟨ht, rfl⟩

theorem Volume.mem_owned {k : Nat} :
    k ∈ v.owned g i ↔ v.inodeBit i = true ∧ ∃ x < v.blocks i, v.ptr g i x = k := by
  unfold Volume.owned
  split
  · rename_i h
    simp [h]
  · rename_i h
    simp [h]

theorem Volume.owned_of_bit (h : v.inodeBit i = true) :
    v.owned g i = (List.range (v.blocks i)).map (v.ptr g i) := if_pos h

theorem Volume.owned_of_clear (h : v.inodeBit i = false) : v.owned g i = [] :=
  if_neg (by simp [h])

/-- The blocks from `b` on. -/
theorem Volume.mem_tail {b k : Nat} :
    k ∈ (List.range' b (v.blocks i - b)).map (v.ptr g i) ↔
      ∃ x, b ≤ x ∧ x < v.blocks i ∧ v.ptr g i x = k := by
  simp only [List.mem_map, List.mem_range'_1]
  constructor
  · rintro ⟨x, hx, rfl⟩
    exact ⟨x, by omega, by omega, rfl⟩
  · rintro ⟨x, h1, h2, rfl⟩
    exact ⟨x, by omega, rfl⟩

theorem Sound.ptr_injective (h : Sound g v) (hi : v.inodeBit i = true) {x y : Nat}
    (hx : x < v.blocks i) (hy : y < v.blocks i) (heq : v.ptr g i x = v.ptr g i y) : x = y := by
  have hnodup := h.owned.nodup i
  rw [Volume.owned, if_pos hi] at hnodup
  exact List.inj_on_of_nodup_map hnodup (List.mem_range.mpr hx) (List.mem_range.mpr hy) heq

/-- The first `b` blocks are those owned, less the blocks from `b` on. -/
theorem Sound.mem_head (h : Sound g v) (hi : v.inodeBit i = true) {b k : Nat} :
    k ∈ (List.range (min b (v.blocks i))).map (v.ptr g i) ↔
      k ∈ v.owned g i ∧ k ∉ (List.range' b (v.blocks i - b)).map (v.ptr g i) := by
  rw [Volume.mem_tail, Volume.owned_of_bit hi]
  simp only [List.mem_map, List.mem_range]
  constructor
  · rintro ⟨x, hx, rfl⟩
    refine ⟨⟨x, by omega, rfl⟩, ?_⟩
    rintro ⟨y, h1, h2, heq⟩
    have := h.ptr_injective hi h2 (by omega) heq
    omega
  · rintro ⟨⟨x, hx, rfl⟩, hno⟩
    refine ⟨x, ?_, rfl⟩
    by_contra hge
    exact hno ⟨x, by omega, hx, rfl⟩

/-- Giving back the blocks of inode `i` from `b` on. -/
theorem Sound.give (h : Sound g v) (hi : v.inodeBit i = true) (b : Nat) {used : Nat → Bool}
    (hused : ∀ k, used k = if k ∈ (List.range' b (v.blocks i - b)).map (v.ptr g i) then false
      else v.dataBit k) :
    Owned used (Function.update (v.owned g) i
      ((List.range (min b (v.blocks i))).map (v.ptr g i))) := by
  refine h.owned.give ?_ fun k => ?_
  · rw [Volume.owned_of_bit hi]
    exact (List.range_sublist.mpr (Nat.min_le_right _ _)).map _
  · rw [hused, h.mem_head hi]
    split
    · rename_i hk
      obtain ⟨x, -, hx, rfl⟩ := Volume.mem_tail.mp hk
      have hown : v.ptr g i x ∈ v.owned g i := Volume.mem_owned.mpr ⟨hi, x, hx, rfl⟩
      exact iff_of_false (by simp) fun hkept => (hkept.2 hown).2 hk
    · rename_i hk
      exact ⟨fun hu => ⟨hu, fun hown => ⟨hown, hk⟩⟩, fun hu => hu.1⟩

theorem Sound.ptr_ne (h : Sound g v) (hi : v.inodeBit i = true) {j : Nat}
    (hj : v.inodeBit j = true) (hne : i ≠ j) {x y : Nat} (hx : x < v.blocks i)
    (hy : y < v.blocks j) : v.ptr g i x ≠ v.ptr g j y := by
  intro heq
  have hxi : v.ptr g i x ∈ v.owned g i := Volume.mem_owned.mpr ⟨hi, x, hx, rfl⟩
  have hxj : v.ptr g i x ∈ v.owned g j := Volume.mem_owned.mpr ⟨hj, y, hy, heq.symm⟩
  exact hne (h.owned.unique hxi hxj)

/-- A free block is nobody's. -/
theorem Sound.ptr_ne_free (h : Sound g v) (hi : v.inodeBit i = true) {x k : Nat}
    (hx : x < v.blocks i) (hk : v.dataBit k = false) : v.ptr g i x ≠ k := by
  rintro rfl
  have hused := h.owned.used_of_mem (Volume.mem_owned.mpr ⟨hi, x, hx, rfl⟩)
  simp [hk] at hused

theorem Sound.data_lt (h : Sound g v) {k : Nat} (hk : v.dataBit k = true) : k < g.numData := by
  obtain ⟨i, hi⟩ := (h.owned.used_iff k).mp hk
  obtain ⟨hbit, x, hx, rfl⟩ := Volume.mem_owned.mp hi
  exact (h.good hbit).ptr_lt hx

theorem Sound.root (h : Sound g v) :
    v.inodeBit 0 = true ∧ (v.inode 0).type = ufsDirectory := by
  obtain ⟨es, hroot⟩ := h.tree.root
  exact ⟨Volume.bit_of_node hroot, Volume.dir_of_node hroot⟩

/-! ## What leaves an inode alone -/

/-- Inode `i` is the same in both volumes, and so are the blocks it owns. -/
structure Same (g : Geometry) (v v' : Volume) (i : Nat) : Prop where
  inodeBit : v'.inodeBit i = v.inodeBit i
  inode : v'.inode i = v.inode i
  data : ∀ x < v.blocks i, v'.data (v.ptr g i x) = v.data (v.ptr g i x)

namespace Same

theorem refl (v : Volume) (i : Nat) : Same g v v i := ⟨rfl, rfl, fun _ _ => rfl⟩

theorem ptr (h : Same g v v' i) (x : Nat) : v'.ptr g i x = v.ptr g i x := by
  rw [Volume.ptr, Volume.ptr, h.inode]

theorem blocks (h : Same g v v' i) : v'.blocks i = v.blocks i := by
  rw [Volume.blocks, Volume.blocks, h.inode]

theorem trans {v'' : Volume} (h : Same g v v' i) (h' : Same g v' v'' i) : Same g v v'' i := by
  refine ⟨h'.inodeBit.trans h.inodeBit, h'.inode.trans h.inode, fun x hx => ?_⟩
  rw [← h.ptr, h'.data x (by rwa [h.blocks]), h.ptr, h.data x hx]

theorem count (h : Same g v v' i) : v'.count i = v.count i := by
  rw [Volume.count, Volume.count, h.inode]

theorem owned (h : Same g v v' i) : v'.owned g i = v.owned g i := by
  have hptr : v'.ptr g i = v.ptr g i := funext h.ptr
  rw [Volume.owned, Volume.owned, h.inodeBit, h.blocks, hptr]

theorem entry (h : Same g v v' i) {k : Nat} (hk : k < 128 * v.blocks i) :
    v'.entry g i k = v.entry g i k := by
  rw [Volume.entry, Volume.entry, h.ptr, h.data _ (by omega)]

theorem entries (h : Same g v v' i) : v'.entries g i = v.entries g i := by
  have hle := v.count_le_blocks i
  rw [Volume.entries, Volume.entries, h.count]
  apply List.map_congr_left
  intro k hk
  have hk := List.mem_range.mp hk
  rw [h.entry (by omega)]

theorem content (h : Same g v v' i) : v'.content g i = v.content g i := by
  rw [Volume.content, Volume.content, h.inode]
  apply List.map_congr_left
  intro k hk
  have hk := List.mem_range.mp hk
  rw [Volume.byte, Volume.byte, h.ptr, h.data _ (by unfold Volume.blocks blocksFor; omega)]

theorem slots (h : Same g v v' i) (hs : GoodSlots g v i) : GoodSlots g v' i := by
  have hle := v.count_le_blocks i
  have hge := hs.count_ge
  refine ⟨?_, ?_, ?_, ?_, fun k h2 hk => ?_, fun k hk hk' => ?_⟩
  · rw [h.inode]
    exact hs.size_dvd
  · rw [h.inode]
    exact hs.size_ge
  · rw [h.entry (by omega)]
    exact hs.self
  · rw [h.entry (by omega)]
    exact hs.parent
  · rw [h.count] at hk
    rw [h.entry (by omega)]
    exact hs.live k h2 hk
  · rw [h.count] at hk
    rw [h.blocks] at hk'
    rw [h.entry hk']
    exact hs.stale k hk hk'

theorem good (h : Same g v v' i) (hg : GoodInode g v i) : GoodInode g v' i := by
  refine ⟨?_, ?_, ?_, fun x hx => ?_, fun ht => h.slots (hg.slots ?_)⟩
  · rw [h.inode]
    exact hg.type
  · rw [h.inode]
    exact hg.size_nonneg
  · rw [h.inode]
    exact hg.size_le
  · rw [h.blocks] at hx
    rw [h.inode]
    exact hg.region x hx
  · rwa [h.inode] at ht

theorem node (h : Same g v v' i) (hg : v.inodeBit i = true → GoodInode g v i) :
    v'.node g i = v.node g i := by
  cases hb : v.inodeBit i with
  | false => rw [Volume.node_of_clear hb, Volume.node_of_clear (h.inodeBit.trans hb)]
  | true =>
      have hb' := h.inodeBit.trans hb
      by_cases ht : (v.inode i).type = ufsDirectory
      · have hs := (hg hb).slots ht
        have hge := hs.count_ge
        have hle := v.count_le_blocks i
        rw [Volume.node_of_dir hb ht, Volume.node_of_dir hb' (by rw [h.inode]; exact ht),
          h.entries, h.entry (by omega)]
      · rw [Volume.node_of_file hb ht, Volume.node_of_file hb' (by rw [h.inode]; exact ht),
          h.content]

end Same

end Gunrock
