import Gunrock.Runs

/-!
# Consistent images

What a checker of image files would look for, read off an image through the superblock
that it has: whether the data bitmap is exact (`ExactOwnership`) and whether the
directories form a tree (`TreeShaped`).  In contrast to `Sound` nothing here presumes a
layout.

Both hold in all states of a run, unless `mkfs` computed a wrong layout to start with.
-/

namespace Gunrock

namespace Image

variable (im : Nat → Block)

def super : Super := Super.decode (im 0)

/-- Block `k` of the region at `addr`. -/
def blockAt (addr : Int) (k : Nat) : Block := im (addr + k).toNat

def inodeBit (i : Nat) : Bool := (blockAt im (super im).inodeBitmapAddr (i / 32768)).bit (i % 32768)

def dataBit (k : Nat) : Bool := (blockAt im (super im).dataBitmapAddr (k / 32768)).bit (k % 32768)

def inode (i : Nat) : Inode := (blockAt im (super im).inodeRegionAddr (i / 32)).inode (i % 32)

/-- Slot `k` of directory `i`. -/
def slot (i k : Nat) : DirEnt := (im ((inode im i).ptr (k / 128))).entry (k % 128)

/-- How many slots are within the directory's size. -/
def count (i : Nat) : Nat := ((inode im i).size / 32).toNat

/-- Inode `i` is allocated. -/
def Allocated (i : Nat) : Prop := (i : Int) < (super im).numInodes ∧ inodeBit im i = true

instance (i : Nat) : Decidable (Allocated im i) := inferInstanceAs (Decidable (_ ∧ _))

def IsDirectory (i : Nat) : Prop := Allocated im i ∧ (inode im i).type = ufsDirectory

def IsFile (i : Nat) : Prop := Allocated im i ∧ (inode im i).type = ufsRegularFile

instance (i : Nat) : Decidable (IsDirectory im i) := inferInstanceAs (Decidable (_ ∧ _))

instance (i : Nat) : Decidable (IsFile im i) := inferInstanceAs (Decidable (_ ∧ _))

/-- The bytes of file `i`. -/
def content (i : Nat) : Bytes := (List.range (inode im i).size.toNat).map fun k =>
  (im ((inode im i).ptr (k / 4096))).get (k % 4096)

/-- The allocated inode `i` has data block `k` as its block `x`. -/
def Owns (i x k : Nat) : Prop :=
  Allocated im i ∧ x < blocksFor (inode im i).size ∧
    ((inode im i).ptr x : Int) = (super im).dataRegionAddr + k

instance (i x k : Nat) : Decidable (Owns im i x k) := inferInstanceAs (Decidable (_ ∧ _ ∧ _))

/-- Slot `k` of directory `i` is a live entry other than its first two. -/
structure Live (i k : Nat) : Prop where
  dir : IsDirectory im i
  two_le : 2 ≤ k
  lt_count : k < count im i
  used : (slot im i k).inum ≠ -1

/-- Directory `i` has a live entry for `j`. -/
def Edge (i j : Nat) : Prop := ∃ k, Live im i k ∧ (slot im i k).inum = j

/-- The bitmaps and the inode table agree. -/
structure ExactOwnership : Prop where
  /-- A used data block has one owner, at one place. -/
  used : ∀ k : Nat, (k : Int) < (super im).numData →
    (dataBit im k = true ↔ ∃! p : Nat × Nat, Owns im p.1 p.2 k)
  free : ∀ k : Nat, (k : Int) < (super im).numData → dataBit im k = false →
    ∀ i x, ¬ Owns im i x k
  /-- No bit is set behind the last data block. -/
  data_end : ∀ k : Nat, (super im).numData ≤ k → (k : Int) < 32768 * (super im).dataBitmapLen →
    dataBit im k = false
  inode_end : ∀ i : Nat, (super im).numInodes ≤ i → (i : Int) < 32768 * (super im).inodeBitmapLen →
    inodeBit im i = false
  size : ∀ i, Allocated im i → 0 ≤ (inode im i).size ∧ (inode im i).size ≤ 30 * 4096
  ptr : ∀ i x, Allocated im i → x < blocksFor (inode im i).size →
    (super im).dataRegionAddr ≤ (inode im i).ptr x ∧
      ((inode im i).ptr x : Int) < (super im).dataRegionAddr + (super im).dataRegionLen

/-- The directories form a tree with inode `0` at its root. -/
structure TreeShaped : Prop where
  root : IsDirectory im 0
  size : ∀ i, IsDirectory im i → 64 ≤ (inode im i).size ∧ 32 ∣ (inode im i).size
  self : ∀ i, IsDirectory im i → (slot im i 0).cname = dot ∧ (slot im i 0).inum = i
  parent : ∀ i, IsDirectory im i → (slot im i 1).cname = dotdot ∧
    ∃ p : Nat, (slot im i 1).inum = p ∧ if i = 0 then p = 0 else Edge im p i
  /-- Names in a directory are different. -/
  names : ∀ i k k', Live im i k → Live im i k' → (slot im i k).cname = (slot im i k').cname → k = k'
  name : ∀ i k, Live im i k → (slot im i k).cname ≠ [] ∧ (slot im i k).cname.length ≤ 27 ∧
    (slot im i k).cname ≠ dot ∧ (slot im i k).cname ≠ dotdot
  target : ∀ i k, Live im i k → ∃ j : Nat, (slot im i k).inum = j ∧ Allocated im j
  /-- Every inode but the root has one entry. -/
  entry : ∀ j : Nat, Allocated im j → j ≠ 0 →
    ∃! p : Nat × Nat, Live im p.1 p.2 ∧ (slot im p.1 p.2).inum = j
  reach : ∀ j, Allocated im j → Relation.ReflTransGen (Edge im) 0 j

end Image

/-! ## What the image of a sound disk says -/

section

variable {g : Geometry} {d : Disk} {i j k : Nat} {numInodes numData : Int}

namespace Serves

theorem super_eq (h : Serves g d) : Image.super d.image = g.super := h.idle.super

theorem inodeBit_eq (h : Serves g d) (hi : i < 32768 * g.inodeBitmapLen) :
    Image.inodeBit d.image i = (g.volume d.image).inodeBit i := by
  rw [Image.inodeBit, h.super_eq, Geometry.inodeBit_volume hi]
  rfl

theorem dataBit_eq (h : Serves g d) (hk : k < 32768 * g.dataBitmapLen) :
    Image.dataBit d.image k = (g.volume d.image).dataBit k := by
  rw [Image.dataBit, h.super_eq, Geometry.dataBit_volume hk]
  rfl

/-- The free data blocks, in the order in which they will be taken. -/
theorem freeData_eq (h : Serves g d) :
    FreeList.free (Image.dataBit d.image) (Image.super d.image).numData.toNat =
      (g.volume d.image).freeData g := by
  have hle := g.numData_le_bitmap
  have hnum : (Image.super d.image).numData.toNat = g.numData := by
    rw [h.super_eq]
    rfl
  rw [Volume.freeData, hnum]
  refine List.filter_congr fun k hk => ?_
  have hk := List.mem_range.mp hk
  rw [h.dataBit_eq (by omega)]

/-- The free inodes, likewise. -/
theorem freeInodes_eq (h : Serves g d) :
    FreeList.free (Image.inodeBit d.image) (Image.super d.image).numInodes.toNat =
      (g.volume d.image).freeInodes g := by
  have hle := g.numInodes_le_bitmap
  have hnum : (Image.super d.image).numInodes.toNat = g.numInodes := by
    rw [h.super_eq]
    rfl
  rw [Volume.freeInodes, hnum]
  refine List.filter_congr fun i hi => ?_
  have hi := List.mem_range.mp hi
  rw [h.inodeBit_eq (by omega)]

theorem allocated (h : Serves g d) :
    Image.Allocated d.image i ↔ (g.volume d.image).inodeBit i = true := by
  have hle := g.numInodes_le_bitmap
  have hnum : (Image.super d.image).numInodes = g.numInodes := by
    rw [h.super_eq]
    rfl
  rw [Image.Allocated, hnum]
  constructor
  · rintro ⟨hi, hb⟩
    rwa [h.inodeBit_eq (by omega)] at hb
  · intro hb
    have hi := h.sound.inode_lt hb
    exact ⟨by omega, by rwa [h.inodeBit_eq (by omega)]⟩

theorem inode_eq_of_lt (h : Serves g d) (hi : i < g.numInodes) :
    Image.inode d.image i = (g.volume d.image).inode i := by
  have hle := g.numInodes_le_region
  rw [Image.inode, h.super_eq, Geometry.inode_volume (by omega)]
  rfl

theorem inode_eq (h : Serves g d) (hb : (g.volume d.image).inodeBit i = true) :
    Image.inode d.image i = (g.volume d.image).inode i :=
  h.inode_eq_of_lt (h.sound.inode_lt hb)

theorem exists_node (h : Serves g d) (hj : Image.Allocated d.image j) :
    ∃ n, nodes g d j = some n := by
  rw [← Option.ne_none_iff_exists', ne_eq, Volume.node_eq_none, h.allocated.mp hj]
  decide

theorem count_eq (h : Serves g d) (hb : (g.volume d.image).inodeBit i = true) :
    Image.count d.image i = (g.volume d.image).count i := by
  rw [Image.count, h.inode_eq hb, Volume.count]

theorem slot_eq (h : Serves g d) (hb : (g.volume d.image).inodeBit i = true)
    (hk : k < 128 * (g.volume d.image).blocks i) :
    Image.slot d.image i k = (g.volume d.image).entry g i k := by
  have hg := h.sound.good hb
  rw [Image.slot, h.inode_eq hb, Volume.entry, Geometry.data_volume (hg.ptr_lt (by omega)),
    ← hg.dataBlock_ptr (by omega), Geometry.dataBlock]

theorem isDirectory (h : Serves g d) : Image.IsDirectory d.image i ↔
    (g.volume d.image).inodeBit i = true ∧ ((g.volume d.image).inode i).type = ufsDirectory := by
  rw [Image.IsDirectory, h.allocated]
  refine and_congr_right fun hb => ?_
  rw [h.inode_eq hb]

theorem isFile (h : Serves g d) : Image.IsFile d.image i ↔
    (g.volume d.image).inodeBit i = true ∧
      ((g.volume d.image).inode i).type = ufsRegularFile := by
  rw [Image.IsFile, h.allocated]
  refine and_congr_right fun hb => ?_
  rw [h.inode_eq hb]

theorem content_eq (h : Serves g d) (hb : (g.volume d.image).inodeBit i = true) :
    Image.content d.image i = (g.volume d.image).content g i := by
  have hg := h.sound.good hb
  rw [Image.content, h.inode_eq hb, Volume.content]
  refine List.map_congr_left fun k hk => ?_
  have hk := List.mem_range.mp hk
  have hx : k / 4096 < (g.volume d.image).blocks i := by
    unfold Volume.blocks blocksFor
    omega
  rw [Volume.byte, Geometry.data_volume (hg.ptr_lt hx), ← hg.dataBlock_ptr hx, Geometry.dataBlock]

theorem goodSlots (h : Serves g d) (hd : Image.IsDirectory d.image i) :
    GoodSlots g (g.volume d.image) i :=
  (h.sound.good (h.isDirectory.mp hd).1).slots (h.isDirectory.mp hd).2

theorem live (h : Serves g d) : Image.Live d.image i k ↔
    Image.IsDirectory d.image i ∧ 2 ≤ k ∧ k < (g.volume d.image).count i := by
  constructor
  · rintro ⟨hd, h2, hk, -⟩
    rw [h.count_eq (h.isDirectory.mp hd).1] at hk
    exact ⟨hd, h2, hk⟩
  · rintro ⟨hd, h2, hk⟩
    have hle := (g.volume d.image).count_le_blocks i
    have hb := (h.isDirectory.mp hd).1
    have hused := (h.goodSlots hd).used hk
    refine ⟨hd, h2, by rwa [h.count_eq hb], ?_⟩
    rw [h.slot_eq hb (by omega)]
    omega

/-- A live slot and what it says. -/
theorem live_entry (h : Serves g d) (hl : Image.Live d.image i k) :
    Image.slot d.image i k = (g.volume d.image).entry g i k ∧
      LiveEntry ((g.volume d.image).entry g i k) := by
  obtain ⟨hd, h2, hk⟩ := h.live.mp hl
  have hle := (g.volume d.image).count_le_blocks i
  exact ⟨h.slot_eq (h.isDirectory.mp hd).1 (by omega), (h.goodSlots hd).live k h2 hk⟩

/-- The entries of the tree are what live slots say. -/
theorem entry_iff (h : Serves g d) {x : Bytes} : (nodes g d).Entry i x j ↔
    ∃ k, Image.Live d.image i k ∧ (Image.slot d.image i k).cname = x ∧
      (Image.slot d.image i k).inum = j := by
  constructor
  · rintro ⟨p, es, hi, hmem⟩
    have hb := Volume.bit_of_node hi
    have hdir := Volume.dir_of_node hi
    rw [nodes, Volume.node_of_dir hb hdir] at hi
    cases hi
    obtain ⟨k, h2, hk, hname, hinum⟩ := Volume.mem_drop_entries.mp hmem
    have hl : Image.Live d.image i k := h.live.mpr ⟨h.isDirectory.mpr ⟨hb, hdir⟩, h2, hk⟩
    obtain ⟨hslot, hlive⟩ := h.live_entry hl
    have hnonneg := hlive.inum_nonneg
    refine ⟨k, hl, ?_, ?_⟩
    · rw [hslot, hname]
    · rw [hslot]
      omega
  · rintro ⟨k, hl, hname, hinum⟩
    obtain ⟨hslot, -⟩ := h.live_entry hl
    obtain ⟨hd, h2, hk⟩ := h.live.mp hl
    obtain ⟨hb, hdir⟩ := h.isDirectory.mp hd
    rw [hslot] at hname hinum
    rw [Namespace.entry_iff (Volume.node_of_dir hb hdir), Volume.mem_drop_entries]
    exact ⟨k, h2, hk, hname, by omega⟩

theorem edge_iff (h : Serves g d) : Image.Edge d.image i j ↔ (nodes g d).Edge i j := by
  constructor
  · rintro ⟨k, hl, hinum⟩
    exact ⟨_, h.entry_iff.mpr ⟨k, hl, rfl, hinum⟩⟩
  · rintro ⟨x, hx⟩
    obtain ⟨k, hl, -, hinum⟩ := h.entry_iff.mp hx
    exact ⟨k, hl, hinum⟩

/-- Slots with the same name are the same slot. -/
theorem live_unique (h : Serves g d) {k' : Nat} (hl : Image.Live d.image i k)
    (hl' : Image.Live d.image i k')
    (hname : (Image.slot d.image i k).cname = (Image.slot d.image i k').cname) : k = k' := by
  obtain ⟨hslot, hlive⟩ := h.live_entry hl
  obtain ⟨hslot', hlive'⟩ := h.live_entry hl'
  obtain ⟨hd, h2, hk⟩ := h.live.mp hl
  obtain ⟨-, h2', hk'⟩ := h.live.mp hl'
  obtain ⟨hb, hdir⟩ := h.isDirectory.mp hd
  rw [hslot, hslot'] at hname
  have hnodup := h.sound.tree.names (Volume.node_of_dir hb hdir)
  rw [Volume.drop_entries, List.map_map] at hnodup
  exact List.inj_on_of_nodup_map hnodup (List.mem_range'_1.mpr (by omega))
    (List.mem_range'_1.mpr (by omega)) hname

/-! ## Consistency -/

theorem owns_iff (h : Serves g d) {x : Nat} : Image.Owns d.image i x k ↔
    (g.volume d.image).inodeBit i = true ∧ x < (g.volume d.image).blocks i ∧
      (g.volume d.image).ptr g i x = k := by
  have haddr : (Image.super d.image).dataRegionAddr = g.dataRegionAddr := by
    rw [h.super_eq]
    rfl
  rw [Image.Owns, h.allocated, haddr]
  refine and_congr_right fun hb => ?_
  rw [h.inode_eq hb]
  refine and_congr_right fun hx => ?_
  have hptr := (h.sound.good hb).dataBlock_ptr hx
  unfold Geometry.dataBlock at hptr
  omega

theorem exactOwnership_image (h : Serves g d) : Image.ExactOwnership d.image := by
  have hs := h.sound
  have hsuper := h.super_eq
  have hdata := g.numData_le_bitmap
  have hmem : ∀ i k, k ∈ (g.volume d.image).owned g i ↔ ∃ x, Image.Owns d.image i x k := by
    intro i k
    simp only [Volume.mem_owned, h.owns_iff, exists_and_left]
  refine ⟨fun k hk => ?_, fun k hk hb i x ho => ?_, fun k hk hlt => ?_, fun i hi hlt => ?_,
    fun i hi => ?_, fun i x hi hx => ?_⟩
  · rw [hsuper] at hk
    have hk : k < g.numData := Int.ofNat_lt.mp hk
    rw [h.dataBit_eq (by omega), hs.owned.used_iff]
    constructor
    · rintro ⟨i, hi⟩
      obtain ⟨x, hx⟩ := (hmem i k).mp hi
      refine ⟨(i, x), hx, ?_⟩
      rintro ⟨i', x'⟩ hx'
      obtain rfl : i' = i := hs.owned.unique ((hmem i' k).mpr ⟨x', hx'⟩) hi
      obtain ⟨hb, hlt, heq⟩ := h.owns_iff.mp hx
      obtain ⟨-, hlt', heq'⟩ := h.owns_iff.mp hx'
      exact congrArg (Prod.mk i') (hs.ptr_injective hb hlt' hlt (heq'.trans heq.symm))
    · rintro ⟨⟨i, x⟩, hx, -⟩
      exact ⟨i, (hmem i k).mpr ⟨x, hx⟩⟩
  · rw [hsuper] at hk
    have hk : k < g.numData := Int.ofNat_lt.mp hk
    rw [h.dataBit_eq (by omega)] at hb
    exact hs.owned.notMem_of_unused hb i ((hmem i k).mpr ⟨x, ho⟩)
  · rw [hsuper] at hk hlt
    have hk : g.numData ≤ k := Int.ofNat_le.mp hk
    have hlt : (k : Int) < 32768 * (g.dataBitmapLen : Int) := hlt
    rw [h.dataBit_eq (by omega)]
    by_contra hset
    have := hs.data_lt ((Bool.not_eq_false _).mp hset)
    omega
  · rw [hsuper] at hi hlt
    have hi : g.numInodes ≤ i := Int.ofNat_le.mp hi
    have hlt : (i : Int) < 32768 * (g.inodeBitmapLen : Int) := hlt
    rw [h.inodeBit_eq (by omega)]
    by_contra hset
    have := hs.inode_lt ((Bool.not_eq_false _).mp hset)
    omega
  · have hb := h.allocated.mp hi
    rw [h.inode_eq hb]
    exact ⟨(hs.good hb).size_nonneg, (hs.good hb).size_le⟩
  · have hb := h.allocated.mp hi
    rw [h.inode_eq hb] at hx ⊢
    obtain ⟨hlow, hhigh⟩ := (hs.good hb).region x hx
    unfold Counts.totalBlocks at hhigh
    rw [hsuper]
    simp only [Counts.super]
    omega

theorem treeShaped_image (h : Serves g d) (hne : ∀ i x j, (nodes g d).Entry i x j → x ≠ []) :
    Image.TreeShaped d.image := by
  have hs := h.sound
  have ht := hs.tree
  -- the first two slots
  have hslot : ∀ i k, Image.IsDirectory d.image i → k < 2 →
      Image.slot d.image i k = (g.volume d.image).entry g i k := by
    intro i k hd hk
    have hle := (g.volume d.image).count_le_blocks i
    have hge := (h.goodSlots hd).count_ge
    exact h.slot_eq (h.isDirectory.mp hd).1 (by omega)
  have hentry : ∀ i k, Image.Live d.image i k → ∃ j : Nat, (Image.slot d.image i k).inum = j ∧
      (nodes g d).Entry i (Image.slot d.image i k).cname j := by
    intro i k hl
    obtain ⟨heq, hlive⟩ := h.live_entry hl
    obtain ⟨j, hj⟩ := Int.eq_ofNat_of_zero_le hlive.inum_nonneg
    rw [← heq] at hj
    exact ⟨j, hj, h.entry_iff.mpr ⟨k, hl, rfl, hj⟩⟩
  refine ⟨h.isDirectory.mpr hs.root, fun i hd => ?_, fun i hd => ?_, fun i hd => ?_,
    fun i k k' hl hl' => h.live_unique hl hl', fun i k hl => ?_, fun i k hl => ?_,
    fun j hj hj0 => ?_, fun j hj => ?_⟩
  · rw [h.inode_eq (h.isDirectory.mp hd).1]
    exact ⟨(h.goodSlots hd).size_ge, (h.goodSlots hd).size_dvd⟩
  · rw [hslot i 0 hd (by omega)]
    exact (h.goodSlots hd).self
  · obtain ⟨hb, hdir⟩ := h.isDirectory.mp hd
    obtain ⟨hname, hnonneg⟩ := (h.goodSlots hd).parent
    obtain ⟨p, hp⟩ := Int.eq_ofNat_of_zero_le hnonneg
    have hnode := Volume.node_of_dir (g := g) hb hdir
    rw [hp, Int.toNat_natCast] at hnode
    rw [hslot i 1 hd (by omega)]
    refine ⟨hname, p, hp, ?_⟩
    split
    · rename_i h0
      subst h0
      obtain ⟨es, hr⟩ := ht.root
      rw [hnode] at hr
      cases hr
      rfl
    · rename_i h0
      obtain ⟨q, x, hq⟩ := ht.exists_entry hnode h0
      obtain rfl := ht.parent hq hnode
      exact h.edge_iff.mpr ⟨x, hq⟩
  · obtain ⟨heq, hlive⟩ := h.live_entry hl
    obtain ⟨j, -, he⟩ := hentry i k hl
    have hlt := hlive.length_lt
    refine ⟨hne _ _ _ he, ?_⟩
    rw [heq]
    exact ⟨by simp only [dirEntNameSize] at hlt; omega, hlive.ne_dot, hlive.ne_dotdot⟩
  · obtain ⟨j, hj, he⟩ := hentry i k hl
    obtain ⟨n, hn⟩ := ht.target he
    exact ⟨j, hj, h.allocated.mpr (Volume.bit_of_node hn)⟩
  · obtain ⟨n, hn⟩ := h.exists_node hj
    obtain ⟨i, x, he⟩ := ht.exists_entry hn hj0
    obtain ⟨k, hl, hx, hinum⟩ := h.entry_iff.mp he
    refine ⟨(i, k), ⟨hl, hinum⟩, ?_⟩
    rintro ⟨i', k'⟩ ⟨hl', hinum'⟩
    have he' := h.entry_iff.mpr ⟨k', hl', rfl, hinum'⟩
    obtain ⟨rfl, hx'⟩ := ht.unique he he'
    exact congrArg (Prod.mk i) (h.live_unique hl' hl (hx'.symm.trans hx.symm))
  · obtain ⟨n, hn⟩ := h.exists_node hj
    have hedge : (nodes g d).Edge ≤ Image.Edge d.image := fun _ _ he => h.edge_iff.mpr he
    exact Relation.ReflTransGen.mono hedge 0 j (ht.reach hn)

end Serves

/-! ## Every run -/

/-- A state of a run in which the root has a file of one byte. -/
theorem exists_reachable_file : ∃ d, Reachable 32 32 d ∧
    result (LocalFileSystem.lookup 0 [97]) d = some 1 ∧ Image.IsFile d.image 1 ∧
    (Image.inode d.image 1).size = 1 := by
  obtain ⟨d, hd, hP⟩ := exists_reachable Mkfs.mkfs_ordinary (by decide)
    [.create 0 ufsRegularFile [97], .write 1 (some fun _ => 120) 1] (by decide)
    (P := fun d => decide (result (LocalFileSystem.lookup 0 [97]) d = some 1) &&
      decide (Image.IsFile d.image 1) && decide ((Image.inode d.image 1).size = 1))
    (by decide +kernel)
  simp only [Bool.and_eq_true, decide_eq_true_eq] at hP
  exact ⟨d, hd, hP.1.1, hP.1.2, hP.2⟩

/-- Block ownership is exact in every state of a run that starts from a proper layout. -/
theorem Reachable.exactOwnership (h : Reachable numInodes numData d)
    (hno : Mkfs.NoOverflow numInodes numData) : Image.ExactOwnership d.image := by
  obtain ⟨g, -, -, hs, -⟩ := h.serves hno
  exact hs.exactOwnership_image

theorem exists_exactOwnership : ∃ d, Reachable 32 32 d ∧ Image.IsFile d.image 1 ∧
    Image.ExactOwnership d.image := by
  obtain ⟨d, hd, -, hfile, -⟩ := exists_reachable_file
  exact ⟨d, hd, hfile, hd.exactOwnership (by decide)⟩

/-- The root owns a block that is free, since the data bitmap is that block. -/
theorem exists_not_exactOwnership :
    ∃ d, Reachable 33554400 32 d ∧ ¬ Image.ExactOwnership d.image := by
  obtain ⟨d, hd, hP⟩ := exists_reachable Mkfs.mkfs_overlapping (by decide) [] (by simp)
    (P := fun d => decide ((0 : Int) < (Image.super d.image).numData) &&
      !Image.dataBit d.image 0 && decide (Image.Owns d.image 0 0 0)) (by decide +kernel)
  simp only [Bool.and_eq_true, decide_eq_true_eq, Bool.not_eq_true'] at hP
  exact ⟨d, hd, fun he => he.free 0 hP.1.1 hP.1.2 0 0 hP.2⟩

/-- The directories form a tree in every state of a run that starts from a proper layout. -/
theorem Reachable.treeShaped (h : Reachable numInodes numData d)
    (hno : Mkfs.NoOverflow numInodes numData) : Image.TreeShaped d.image := by
  obtain ⟨g, -, -, hs, hne⟩ := h.serves hno
  exact hs.treeShaped_image hne

theorem exists_treeShaped : ∃ d, Reachable 32 32 d ∧ Image.IsFile d.image 1 ∧
    Image.TreeShaped d.image := by
  obtain ⟨d, hd, -, hfile, -⟩ := exists_reachable_file
  exact ⟨d, hd, hfile, hd.treeShaped (by decide)⟩

/-- The root is not allocated, since its contents were written over the inode bitmap. -/
theorem exists_not_treeShaped : ∃ d, Reachable 33521664 32 d ∧ ¬ Image.TreeShaped d.image := by
  obtain ⟨d, hd, hP⟩ := exists_reachable Mkfs.mkfs_backwards (by decide) [] (by simp)
    (P := fun d => !decide (Image.Allocated d.image 0)) (by decide +kernel)
  rw [Bool.not_eq_true', decide_eq_false_iff_not] at hP
  exact ⟨d, hd, fun ht => hP ht.root.1⟩

end

end Gunrock
