import Gunrock.Consistency
import Mathlib.Data.List.InsertIdx

/-!
# What one call changes

The three calls that change an image, each described on the image: which entries a directory
has afterwards, what a file contains, and that every other inode is what it was (`Kept`).

The volumes of `Creating`, `Unlinking` and `Writing` are in closed form, so that here only
`Same` has to be turned into `Kept`, and the slots of a directory into its list of entries.
-/

namespace Gunrock

open Disk LocalFileSystem Wp

/-! ## Inodes that are kept -/

namespace Image

/-- The entries of directory `i`, `.` and `..` included, by slot. -/
def entries (im : Nat → Block) (i : Nat) : List (Bytes × Int) :=
  (List.range (count im i)).map fun k => ((slot im i k).cname, (slot im i k).inum)

/-- Inode `i` is allocated in the image `im'` and is what it was in `im`: type, size and
pointers, the bytes of its blocks and, if it is a directory, its entries. -/
structure Kept (im im' : Nat → Block) (i : Nat) : Prop where
  allocated : Allocated im' i
  inode : inode im' i = inode im i
  content : content im' i = content im i
  entries : entries im' i = entries im i

end Image

/-- `stat` of inode `i` answers with `inode`. -/
def Stats (d : Disk) (i : Nat) (inode : Inode) : Prop := (stat i).run d = .ok (.ok inode, d)

variable {g : Geometry} {d d' : Disk} {v : Volume} {i j k n p : Nat} {name : Bytes} {type : Int}
  {numInodes numData : Int}

namespace Serves

theorem stats (h : Serves g d) (hi : Image.Allocated d.image i) :
    Stats d i (Image.inode d.image i) := by
  have hb := h.allocated.mp hi
  obtain ⟨r, d', hrun, rfl, rfl⟩ := (wp_stat h.idle.toHolds i
    (Q := fun r d' => r = (g.volume d.image).stat g i ∧ d' = d)).mpr ⟨rfl, rfl⟩
  rw [h.sound.stat_of_bit hb, ← h.inode_eq hb] at hrun
  exact hrun

theorem kept (h : Serves g d) (h' : Serves g d') (hb : (g.volume d.image).inodeBit i = true)
    (hsame : Same g (g.volume d.image) (g.volume d'.image) i) : Image.Kept d.image d'.image i := by
  have hb' := hsame.inodeBit.trans hb
  have hle := (g.volume d.image).count_le_blocks i
  refine ⟨h'.allocated.mpr hb', ?_, ?_, ?_⟩
  · rw [h'.inode_eq hb', h.inode_eq hb, hsame.inode]
  · rw [h'.content_eq hb', h.content_eq hb, hsame.content]
  · rw [Image.entries, Image.entries, h'.count_eq hb', h.count_eq hb, hsame.count]
    refine List.map_congr_left fun k hk => ?_
    have hk := List.mem_range.mp hk
    rw [h'.slot_eq hb' (by rw [hsame.blocks]; omega), h.slot_eq hb (by omega),
      hsame.entry (by omega)]

/-- The entries of a directory all have a number. -/
theorem entries_eq (h : Serves g d) (hi : Image.IsDirectory d.image i) :
    Image.entries d.image i = ((g.volume d.image).entries g i).map fun e => (e.1, (e.2 : Int)) := by
  have hb := (h.isDirectory.mp hi).1
  have hle := (g.volume d.image).count_le_blocks i
  rw [Image.entries, h.count_eq hb, Volume.entries, List.map_map]
  refine List.map_congr_left fun k hk => ?_
  have hk := List.mem_range.mp hk
  have hnonneg := (h.goodSlots hi).used hk
  rw [h.slot_eq hb (by omega)]
  simp only [Function.comp_apply]
  rw [Int.toNat_of_nonneg hnonneg]

end Serves

/-! ## `write` -/

/-- Reading the file `f` on the disk `d'` gives `b`, and everything else is what it was on the
disk `d`. -/
structure ReadsBack (d d' : Disk) (f : Nat) (b : Bytes) : Prop where
  read : ∀ m : Nat, 1 ≤ m →
    (LocalFileSystem.read f m).run d' = .ok (((min b.length m : Nat), b.take m), d')
  stat : ∃ inode, Stats d' f inode ∧ inode.size = b.length
  stats : ∀ i, Image.Allocated d.image i → i ≠ f → ∃ inode, Stats d i inode ∧ Stats d' i inode
  kept : ∀ i, Image.Allocated d.image i → i ≠ f → Image.Kept d.image d'.image i
  inodeBitmap : ∀ i : Nat, (i : Int) < 32768 * (Image.super d.image).inodeBitmapLen →
    Image.inodeBit d'.image i = Image.inodeBit d.image i

/-- What a `write` that did not fail leaves behind. -/
theorem Serves.of_write (h : Serves g d) {n r : Int} {buf : Option (Nat → UInt8)} {size : Int}
    (hsize : size ≤ 2 ^ 31 - 4096) (hrun : (write n buf size).run d = .ok (r, d')) (hr : 0 ≤ r) :
    ∃ (i m : Nat) (f : Nat → UInt8) (scratch : Block), n = i ∧ buf = some f ∧ size = m ∧
      CanWrite g (g.volume d.image) i m ∧
      ((g.volume d.image).rewrite g i f m scratch).TableBlock (i / 32) scratch ∧
      Idle g d' ((g.volume d.image).rewrite g i f m scratch) := by
  have hw : wp (write n buf size) (fun r d' => 0 ≤ r → ∃ (i m : Nat) (f : Nat → UInt8)
      (scratch : Block), n = i ∧ buf = some f ∧ size = m ∧ CanWrite g (g.volume d.image) i m ∧
      ((g.volume d.image).rewrite g i f m scratch).TableBlock (i / 32) scratch ∧
      Idle g d' ((g.volume d.image).rewrite g i f m scratch)) d :=
    wp_write h.idle h.sound hsize (fun r hneg _ d' _ _ hpos => by omega)
      fun i m f scratch d' hi hf hm hcan ht hd' _ => ⟨i, m, f, scratch, hi, hf, hm, hcan, ht, hd'⟩
  exact wlp_of_wp hw _ _ hrun hr

theorem Serves.readsBack (hs : Serves g d) {f : Nat} {b : Bytes} {scratch : Block}
    (hw : CanWrite g (g.volume d.image) f b.length)
    (hd' : Idle g d'
      ((g.volume d.image).rewrite g f (fun k => b.getD k 0) b.length scratch)) :
    ReadsBack d d' f b := by
  have hs' : Serves g d' := .of_idle hd' (hw.sound hs.sound)
  have hvol := hd'.volume
  have hpos := hw.pos
  have hbit : (g.volume d'.image).inodeBit f = true := by
    rw [hvol]
    exact hw.bit
  have hsize : ((g.volume d'.image).inode f).size = b.length := by
    rw [hvol, CanWrite.inode_self]
  have hcontent : (g.volume d'.image).content g f = b := by
    rw [hvol, hw.content hs.sound, CanWrite.map_getD_range]
  have hkept : ∀ j, Image.Allocated d.image j → j ≠ f → Image.Kept d.image d'.image j := by
    intro j hj hne
    have hb := hs.allocated.mp hj
    refine hs.kept hs' hb ?_
    rw [hvol]
    exact hw.same hs.sound hb hne
  refine ⟨fun m hm => ?_, ⟨_, hs'.stats (hs'.allocated.mpr hbit), ?_⟩, fun j hj hne => ?_, hkept,
    fun j hj => ?_⟩
  · obtain ⟨r, d'', hread, rfl, rfl⟩ := wp_read hs'.idle.toHolds hs'.sound hbit (by omega)
      (show 0 < (m : Int) by omega) (Q := fun r d'' => r = (((min b.length m : Nat) : Int), b.take m) ∧
        d'' = d') (by
        rw [hcontent, Int.toNat_natCast, List.length_take, Nat.min_comm]
        exact ⟨rfl, rfl⟩)
    exact hread
  · rw [hs'.inode_eq hbit, hsize]
  · refine ⟨_, hs.stats hj, ?_⟩
    rw [← (hkept j hj hne).inode]
    exact hs'.stats (hkept j hj hne).allocated
  · rw [hs.super_eq] at hj
    have hj : (j : Int) < 32768 * (g.inodeBitmapLen : Int) := hj
    rw [hs.inodeBit_eq (by omega), hs'.inodeBit_eq (by omega), hvol]
    rfl

/-- A `write` changes the contents of one file and nothing else, in every state of a run that
starts from a proper layout. -/
theorem Reachable.write_readsBack (h : Reachable numInodes numData d)
    (hno : Mkfs.NoOverflow numInodes numData) {f : Nat} {b : Bytes} (hpos : 1 ≤ b.length)
    (hle : b.length ≤ 30 * 4096)
    (hrun : (write f (some fun k => b.getD k 0) b.length).run d = .ok ((b.length : Int), d')) :
    ReadsBack d d' f b := by
  obtain ⟨g, -, -, hs, -⟩ := h.serves hno
  obtain ⟨i, m, buf, scratch, hi, hbuf, hm, hw, -, hd'⟩ :=
    hs.of_write (by omega) hrun (by omega)
  obtain rfl : f = i := by omega
  obtain rfl : b.length = m := by omega
  cases hbuf
  exact hs.readsBack hw hd'

theorem exists_readsBack : ∃ d d', Reachable 32 32 d ∧ Image.IsFile d.image 1 ∧
    ReadsBack d d' 1 [65, 66] := by
  obtain ⟨d, hd, hP⟩ := exists_reachable Mkfs.mkfs_ordinary (by decide)
    [.create 0 ufsRegularFile [97]] (by decide)
    (P := fun d => decide (Image.IsFile d.image 1) &&
      decide (result (write 1 (some fun k => ([65, 66] : Bytes).getD k 0) 2) d = some 2))
    (by decide +kernel)
  simp only [Bool.and_eq_true, decide_eq_true_eq] at hP
  obtain ⟨d', hrun⟩ := run_of_result hP.2
  exact ⟨d, d', hd, hP.1, hd.write_readsBack (by decide) (by decide) (by decide) hrun⟩

/-- Where the data bitmap and the root directory are one block, a write to a file changes the
root. -/
theorem exists_not_readsBack : ∃ d d', Reachable 33554400 32 d ∧ Image.IsFile d.image 1 ∧
    (write (1 : Nat) (some fun k => ([65] : Bytes).getD k 0) 1).run d = .ok (1, d') ∧
    ¬ ReadsBack d d' 1 [65] := by
  obtain ⟨d, hd, hP⟩ := exists_reachable Mkfs.mkfs_overlapping (by decide)
    [.create 0 ufsRegularFile [97]] (by decide)
    (P := fun d => decide (Image.IsFile d.image 1) && decide (Image.Allocated d.image 0) &&
      returns (write (1 : Nat) (some fun k => ([65] : Bytes).getD k 0) 1) (fun r d' =>
        decide (r = 1) && !decide (Image.content d'.image 0 = Image.content d.image 0)) d)
    (by decide +kernel)
  simp only [Bool.and_eq_true, decide_eq_true_eq] at hP
  obtain ⟨⟨hfile, halloc⟩, hP⟩ := hP
  obtain ⟨r, d', hrun, hP⟩ := run_of_returns hP
  simp only [Bool.and_eq_true, decide_eq_true_eq, Bool.not_eq_true',
    decide_eq_false_iff_not] at hP
  obtain ⟨rfl, hne⟩ := hP
  exact ⟨d, d', hd, hfile, hrun, fun hback => hne (hback.kept 0 halloc (by decide)).content⟩

/-! ## `unlink` -/

/-- The disk `d'` is `d` without the entry in slot `k` of directory `p` and without the inode `j`
that it names. -/
structure RemovesEntry (d d' : Disk) (p k j : Nat) : Prop where
  directory : Image.IsDirectory d'.image p
  entries : Image.entries d'.image p = (Image.entries d.image p).eraseIdx k
  size : (Image.inode d'.image p).size = (Image.inode d.image p).size - 32
  blocks : blocksFor (Image.inode d.image p).size = blocksFor (Image.inode d'.image p).size +
    if 4096 ∣ (Image.inode d'.image p).size then 1 else 0
  ptr : ∀ x < blocksFor (Image.inode d'.image p).size,
    (Image.inode d'.image p).ptr x = (Image.inode d.image p).ptr x
  lastBlock : ∀ c, Image.Owns d.image p (blocksFor (Image.inode d'.image p).size) c →
    Image.dataBit d'.image c = false
  inodeBit : Image.inodeBit d'.image j = false
  dataBits : ∀ x c, Image.Owns d.image j x c → Image.dataBit d'.image c = false
  kept : ∀ i, Image.Allocated d.image i → i ≠ p → i ≠ j → Image.Kept d.image d'.image i

/-- The entry in slot `k` may be removed. -/
theorem Serves.canRemove (h : Serves g d) (hne : ∀ i x j, (nodes g d).Entry i x j → x ≠ [])
    (hl : Image.Live d.image p k) (hj : (Image.slot d.image p k).inum = j)
    (hempty : Image.IsDirectory d.image j → ∀ m, ¬ Image.Live d.image j m) :
    CanRemove g (g.volume d.image) p (Image.slot d.image p k).cname k j := by
  obtain ⟨hdir, h2, hk⟩ := h.live.mp hl
  obtain ⟨hb, ht⟩ := h.isDirectory.mp hdir
  obtain ⟨hslot, -⟩ := h.live_entry hl
  have hentry := h.entry_iff.mpr ⟨k, hl, rfl, hj⟩
  refine ⟨hb, ht, hne _ _ _ hentry, h2, hk, by rw [hslot], by rw [← hslot, hj], fun htj => ?_⟩
  obtain ⟨n, hn⟩ := h.sound.tree.target hentry
  have hdirj : Image.IsDirectory d.image j := h.isDirectory.mpr ⟨Volume.bit_of_node hn, htj⟩
  by_contra hgt
  exact hempty hdirj 2 (h.live.mpr ⟨hdirj, le_rfl, by omega⟩)

/-- A block that the parent or the child gives back is free. -/
theorem Volume.dataBit_removed_of_mem {v : Volume} {c : Nat}
    (hc : c ∈ (List.range' (v.blocksLeft p) (v.blocks p - v.blocksLeft p)).map (v.ptr g p) ∨
      c ∈ (List.range (v.blocks j)).map (v.ptr g j)) :
    (v.removed g p k j).dataBit c = false := by
  simp only [Volume.removed, Volume.closed, Volume.dataBit_setInodeBit,
    Volume.dataBit_setDataBits, Volume.dataBit_setInode]
  split
  · rfl
  · rename_i hj
    rw [if_pos (hc.resolve_right hj)]

theorem Serves.removesEntry (h : Serves g d)
    (hr : CanRemove g (g.volume d.image) p name k j)
    (hd' : Idle g d' ((g.volume d.image).removed g p k j)) : RemovesEntry d d' p k j := by
  have hs := h.sound
  have h' : Serves g d' := .of_idle hd' (hr.sound hs)
  have hvol := hd'.volume
  have hslots := (hs.good hr.bit).slots hr.dir
  have hbj := hr.bit_child hs
  have hdir : Image.IsDirectory d.image p := h.isDirectory.mpr ⟨hr.bit, hr.dir⟩
  have hbit : (g.volume d'.image).inodeBit p = true := by
    rw [hvol, CanRemove.inodeBit_removed, Function.update_of_ne hr.removable.ne]
    exact hr.bit
  have hdir' : Image.IsDirectory d'.image p := by
    refine h'.isDirectory.mpr ⟨hbit, ?_⟩
    rw [hvol, CanRemove.inode_self]
    exact hr.dir
  have hsize : (Image.inode d'.image p).size = 32 * ((g.volume d.image).count p - 1 : Nat) := by
    rw [h'.inode_eq hbit, hvol, CanRemove.size_self]
  have hold : (Image.inode d.image p).size = 32 * (g.volume d.image).count p := by
    rw [h.inode_eq hr.bit, hslots.size_eq]
  have hpos := hr.count_pos
  have hleft : blocksFor (Image.inode d'.image p).size = (g.volume d.image).blocksLeft p := by
    rw [hsize]
    unfold blocksFor Volume.blocksLeft
    omega
  have hfree : ∀ c < g.numData, ((g.volume d.image).removed g p k j).dataBit c = false →
      Image.dataBit d'.image c = false := by
    intro c hlt hc
    have hle := g.numData_le_bitmap
    rw [h'.dataBit_eq (by omega), hvol, hc]
  refine ⟨hdir', ?_, ?_, ?_, fun x hx => ?_, fun c ho => ?_, ?_, fun x c ho => ?_,
    fun i hi hip hij => ?_⟩
  · rw [h'.entries_eq hdir', h.entries_eq hdir, hvol, hr.entries_self hs, List.eraseIdx_map]
  · rw [hsize, hold]
    omega
  · rw [hsize, hold]
    unfold blocksFor
    split <;> omega
  · rw [hleft] at hx
    have hle := (hs.good hr.bit).blocks_le
    obtain ⟨hlx, -⟩ := blocksLeft_le hslots
    rw [h'.inode_eq hbit, h.inode_eq hr.bit, hvol, CanRemove.inode_self, Volume.parentInode,
      Inode.ptr_setPtrs (by omega), if_neg (by omega)]
    rfl
  · rw [hleft] at ho
    obtain ⟨-, hx, rfl⟩ := h.owns_iff.mp ho
    refine hfree _ ((hs.good hr.bit).ptr_lt hx) (Volume.dataBit_removed_of_mem (.inl ?_))
    exact Volume.mem_tail.mpr ⟨_, le_rfl, hx, rfl⟩
  · have hle := g.numInodes_le_bitmap
    have hlt := hs.inode_lt hbj
    rw [h'.inodeBit_eq (by omega), hvol, CanRemove.inodeBit_removed, Function.update_self]
  · obtain ⟨-, hx, rfl⟩ := h.owns_iff.mp ho
    refine hfree _ ((hs.good hbj).ptr_lt hx) (Volume.dataBit_removed_of_mem (.inr ?_))
    exact List.mem_map.mpr ⟨x, List.mem_range.mpr hx, rfl⟩
  · have hb := h.allocated.mp hi
    refine h.kept h' hb ?_
    rw [hvol]
    exact hr.same hs hb hip hij

/-- `unlink` removes one entry and its inode, in every state of a run that starts from a proper
layout. -/
theorem Reachable.unlink_removesEntry (h : Reachable numInodes numData d)
    (hno : Mkfs.NoOverflow numInodes numData) (hl : Image.Live d.image p k)
    (hj : (Image.slot d.image p k).inum = j)
    (hempty : Image.IsFile d.image j ∨
      Image.IsDirectory d.image j ∧ ∀ m, ¬ Image.Live d.image j m) :
    ∃ d', (unlink p (Image.slot d.image p k).cname).run d = .ok (0, d') ∧
      RemovesEntry d d' p k j := by
  obtain ⟨g, -, -, hs, hne⟩ := h.serves hno
  have hr := hs.canRemove hne hl hj fun hdir => by
    rcases hempty with hfile | ⟨-, hno⟩
    · have := hdir.2.symm.trans hfile.2
      exact absurd this (by decide)
    · exact hno
  obtain ⟨r, d', hrun, rfl, hd'⟩ := hr.wp_unlink hs.idle hs.sound
    (Q := fun r d' => r = 0 ∧ Idle g d' ((g.volume d.image).removed g p k j))
    fun d' hd' => ⟨rfl, hd'⟩
  exact ⟨d', hrun, hs.removesEntry hr hd'⟩

theorem exists_removesEntry : ∃ d d', Reachable 32 32 d ∧ Image.IsFile d.image 1 ∧
    RemovesEntry d d' 0 2 1 := by
  obtain ⟨d, hd, hP⟩ := exists_reachable Mkfs.mkfs_ordinary (by decide)
    [.create 0 ufsRegularFile [97]] (by decide)
    (P := fun d => decide (Image.IsDirectory d.image 0) && decide (2 < Image.count d.image 0) &&
      decide ((Image.slot d.image 0 2).inum = 1) && decide (Image.IsFile d.image 1))
    (by decide +kernel)
  simp only [Bool.and_eq_true, decide_eq_true_eq] at hP
  obtain ⟨⟨⟨hdir, hcount⟩, hinum⟩, hfile⟩ := hP
  have hl : Image.Live d.image 0 2 := ⟨hdir, le_rfl, hcount, by rw [hinum]; decide⟩
  obtain ⟨d', -, hremoves⟩ := hd.unlink_removesEntry (by decide) hl hinum (.inl hfile)
  exact ⟨d, d', hd, hfile, hremoves⟩

/-- The block of a file is that of the root directory and the data bitmap: where the file is
removed, the first name in the root loses a bit. -/
theorem exists_not_removesEntry : ∃ d, Reachable 33554400 32 d ∧ Image.Live d.image 0 2 ∧
    (Image.slot d.image 0 2).inum = 1 ∧ Image.IsFile d.image 1 ∧
    ¬ ∃ d', (unlink (0 : Nat) (Image.slot d.image 0 2).cname).run d = .ok (0, d') ∧
      RemovesEntry d d' 0 2 1 := by
  obtain ⟨d, hd, hP⟩ := exists_reachable Mkfs.mkfs_overlapping (by decide)
    [.create 0 ufsRegularFile [97],
      .write 1 (some fun k => if k = 0 then 47 else (forged 1 1).get k) 4096] (by decide)
    (P := fun d => decide (Image.IsDirectory d.image 0) && decide (2 < Image.count d.image 0) &&
      decide ((Image.slot d.image 0 2).inum = 1) && decide (Image.IsFile d.image 1) &&
      returns (unlink (0 : Nat) (Image.slot d.image 0 2).cname) (fun _ d' =>
        !decide (Image.entries d'.image 0 = (Image.entries d.image 0).eraseIdx 2)) d)
    (by decide +kernel)
  simp only [Bool.and_eq_true, decide_eq_true_eq] at hP
  obtain ⟨⟨⟨⟨hdir, hcount⟩, hinum⟩, hfile⟩, hP⟩ := hP
  refine ⟨d, hd, ⟨hdir, le_rfl, hcount, by rw [hinum]; decide⟩, hinum, hfile, ?_⟩
  rintro ⟨d', hrun, hremoves⟩
  obtain ⟨r, d'', hrun', hP⟩ := run_of_returns hP
  rw [hrun] at hrun'
  cases hrun'
  simp [hremoves.entries] at hP

/-! ## `create` -/

/-- The disk `d'` is `d` with the new inode `i` and an entry for it at the end of directory
`p`. -/
structure AppendsEntry (d d' : Disk) (p i : Nat) (type : Int) (name : Bytes) : Prop where
  free : (i : Int) < (Image.super d.image).numInodes ∧ Image.inodeBit d.image i = false
  allocated : Image.Allocated d'.image i
  newType : (Image.inode d'.image i).type = type
  directory : Image.IsDirectory d'.image p
  entries : Image.entries d'.image p = Image.entries d.image p ++ [(name, (i : Int))]
  newFile : type = ufsRegularFile → (Image.inode d'.image i).size = 0
  newDirectory : type = ufsDirectory →
    Image.entries d'.image i = [(dot, (i : Int)), (dotdot, (p : Int))]
  kept : ∀ j, Image.Allocated d.image j → j ≠ p → Image.Kept d.image d'.image j

/-- What `create` answers and does, for a name that directory `p` does not have, and for one that
it has. -/
structure CreatesEntry (d : Disk) (p : Nat) (type : Int) (name : Bytes) : Prop where
  absent : (∀ k < Image.count d.image p, (Image.slot d.image p k).cname ≠ name) → ∀ r d',
    (create p type name).run d = .ok (r, d') → 0 ≤ r →
      ∃ i : Nat, r = i ∧ AppendsEntry d d' p i type name
  present : ∀ k < Image.count d.image p, (Image.slot d.image p k).cname = name →
    ∃ j : Nat, (Image.slot d.image p k).inum = j ∧ (create p type name).run d =
      .ok (if (Image.inode d.image j).type = type then (j : Int) else -eInvalidType, d)

theorem Serves.appendsEntry (h : Serves g d) (ht : type = ufsDirectory ∨ type = ufsRegularFile)
    (hname : (0 : UInt8) ∉ name) (hc : CanCreate g (g.volume d.image) p type)
    (hn : NewName g (g.volume d.image) p name)
    (hd' : Idle g d' ((g.volume d.image).created g p type name)) :
    AppendsEntry d d' p ((g.volume d.image).newInum g) type name := by
  have hs := h.sound
  have h' : Serves g d' := .of_idle hd' (hc.sound hs ht hn)
  have hvol := hd'.volume
  obtain ⟨hlt, hfree⟩ := newInum_free hc.inode
  have hle := g.numInodes_le_bitmap
  have hbit : (g.volume d'.image).inodeBit ((g.volume d.image).newInum g) = true := by
    rw [hvol]
    exact CanCreate.bit_new
  have hinode : Image.inode d'.image ((g.volume d.image).newInum g) =
      newInode g.super type ((g.volume d.image).newBlock g)
        ((g.volume d.image).inode ((g.volume d.image).newInum g)) := by
    rw [h'.inode_eq hbit, hvol, hc.inode_new]
  have hdir : Image.IsDirectory d.image p := h.isDirectory.mpr ⟨hc.bit, hc.dir⟩
  have hdir' : Image.IsDirectory d'.image p := by
    refine h'.isDirectory.mpr ?_
    rw [hvol, CanCreate.inodeBit_created, Function.update_of_ne (hc.ne_newInum hc.bit)]
    refine ⟨hc.bit, ?_⟩
    rw [hc.same_parent.inode, CanAppend.type_self, (hc.same_first hs hc.bit).inode]
    exact hc.dir
  have htype : (Image.inode d'.image ((g.volume d.image).newInum g)).type = type := by
    rw [hinode, newInode]
    split <;> rfl
  refine ⟨⟨?_, ?_⟩, h'.allocated.mpr hbit, htype, hdir', ?_, fun htf => ?_, fun htd => ?_,
    fun j hj hne => ?_⟩
  · rw [h.super_eq]
    exact Int.ofNat_lt.mpr hlt
  · rw [h.inodeBit_eq (by omega), hfree]
  · rw [h'.entries_eq hdir', h.entries_eq hdir, hvol, hc.entries_parent hs hn,
      Buffer.cStr_of_notMem hname, List.map_append]
    rfl
  · have hne : type ≠ ufsDirectory := by
      rw [htf]
      decide
    rw [hinode, newInode, if_neg hne]
  · have hnew : Image.IsDirectory d'.image ((g.volume d.image).newInum g) :=
      ⟨h'.allocated.mpr hbit, htype.trans htd⟩
    rw [h'.entries_eq hnew, hvol, hc.entries_newDir hs htd]
    rfl
  · have hb := h.allocated.mp hj
    refine h.kept h' hb ?_
    rw [hvol]
    exact hc.same hs hb hne

/-- What `lookup` finds, by slot. -/
theorem Serves.findName_slot (h : Serves g d) (hdir : Image.IsDirectory d.image p)
    (hname : (0 : UInt8) ∉ name) (hdots : ¬ (name = dot ∨ name = dotdot)) (j : Nat) :
    findName (nodes g d) p name = j ↔ ∃ k < Image.count d.image p,
      (Image.slot d.image p k).cname = name ∧ (Image.slot d.image p k).inum = j := by
  obtain ⟨hb, ht⟩ := h.isDirectory.mp hdir
  have hle := (g.volume d.image).count_le_blocks p
  have hcount := h.count_eq hb
  have hchild : findName (nodes g d) p name = j ↔ (nodes g d).Entry p name j := by
    rw [← h.sound.tree.child_eq_some, findName_dir name (Volume.node_of_dir hb ht),
      Buffer.cStr_of_notMem hname, if_neg fun he => hdots (.inl he),
      if_neg fun he => hdots (.inr he)]
    cases (nodes g d).child p name with
    | none => simp
    | some m =>
        simp only [Option.some.injEq]
        omega
  rw [hchild]
  constructor
  · intro he
    obtain ⟨k, hl, hcname, hinum⟩ := h.entry_iff.mp he
    exact ⟨k, hl.lt_count, hcname, hinum⟩
  · rintro ⟨k, hk, hcname, hinum⟩
    rw [hcount] at hk
    rw [h.slot_eq hb (by omega)] at hcname hinum
    obtain ⟨-, m, hm, -, he⟩ := h.sound.entry_of_slot hb ht hk hcname hdots
    obtain rfl : m = j := by omega
    exact he

/-- `create` appends one entry, unless there is one with the name, in every state of a run that
starts from a proper layout. -/
theorem Reachable.createsEntry (h : Reachable numInodes numData d)
    (hno : Mkfs.NoOverflow numInodes numData) (hdir : Image.IsDirectory d.image p)
    (ht : type = ufsDirectory ∨ type = ufsRegularFile) (hname : (0 : UInt8) ∉ name)
    (hlen : 1 ≤ name.length ∧ name.length ≤ 27) (hdots : ¬ (name = dot ∨ name = dotdot)) :
    CreatesEntry d p type name := by
  obtain ⟨g, -, -, hs, -⟩ := h.serves hno
  obtain ⟨hb, htp⟩ := hs.isDirectory.mp hdir
  have hgood : ¬ BadName name := not_badName hlen hdots
  have hnode : (g.volume d.image).node g p = _ := Volume.node_of_dir hb htp
  constructor
  · intro habsent r d' hrun hr
    have hw : wp (create p type name) (fun r d' => 0 ≤ r →
        ∃ i : Nat, r = i ∧ AppendsEntry d d' p i type name) d := by
      refine wp_create_cases hs.idle hs.sound (fitsInt_type ht) (fun hbad => absurd hbad hgood)
        (fun hnot => absurd hnode (hnot p rfl _ _)) (fun j hj _ => ?_)
        (fun _ _ _ _ _ _ _ _ hneg => absurd hneg (by decide)) fun i hi hc d' hd' _ => ?_
      · obtain ⟨k, hk, hcname, -⟩ := (hs.findName_slot hdir hname hdots j).mp hj
        exact absurd hcname (habsent k hk)
      · obtain rfl : p = i := by omega
        exact ⟨_, rfl, hs.appendsEntry ht hname hc.toCanCreate hc.toNewName hd'⟩
    exact wlp_of_wp hw _ _ hrun hr
  · intro k hk hcname
    have hle := (g.volume d.image).count_le_blocks p
    rw [hs.count_eq hb] at hk
    rw [hs.slot_eq hb (by omega)] at hcname ⊢
    obtain ⟨-, j, hj, hbj, -⟩ := hs.sound.entry_of_slot hb htp hk hcname hdots
    have hfind : findName (nodes g d) p name = j := by
      refine (hs.findName_slot hdir hname hdots j).mpr ⟨k, ?_⟩
      rw [hs.count_eq hb, hs.slot_eq hb (by omega)]
      exact ⟨hk, hcname, hj⟩
    obtain ⟨r, d', hrun, rfl, rfl⟩ : wp (create p type name) (fun r d' =>
        r = (if (Image.inode d.image j).type = type then (j : Int) else -eInvalidType) ∧ d' = d) d := by
      refine wp_create_cases hs.idle hs.sound (fitsInt_type ht) (fun hbad => absurd hbad hgood)
        (fun hnot => absurd hnode (hnot p rfl _ _)) (fun m hm => ?_)
        (fun i hi _ hn => absurd hn (not_newName hnode hfind hi))
        fun i hi hc => absurd hc.toNewName (not_newName hnode hfind hi)
      obtain rfl : j = m := Int.ofNat_inj.mp (hfind.symm.trans hm)
      rw [hs.inode_eq hbj]
      exact ⟨rfl, rfl⟩
    exact ⟨j, hj, hrun⟩

/-- The file `a` is created beside the directory `b`. -/
theorem exists_createsEntry : ∃ d d', Reachable 32 32 d ∧ CreatesEntry d 0 ufsRegularFile [97] ∧
    (create (0 : Nat) ufsRegularFile [97]).run d = .ok (2, d') ∧
    AppendsEntry d d' 0 2 ufsRegularFile [97] := by
  obtain ⟨d, hd, hP⟩ := exists_reachable Mkfs.mkfs_ordinary (by decide)
    [.create 0 ufsDirectory [98]] (by decide)
    (P := fun d => decide (Image.IsDirectory d.image 0) &&
      decide (∀ k < Image.count d.image 0, (Image.slot d.image 0 k).cname ≠ [97]) &&
      decide (result (create (0 : Nat) ufsRegularFile [97]) d = some 2)) (by decide +kernel)
  simp only [Bool.and_eq_true, decide_eq_true_eq] at hP
  obtain ⟨⟨hdir, habsent⟩, hrun⟩ := hP
  obtain ⟨d', hrun⟩ := run_of_result hrun
  have hcreates : CreatesEntry d 0 ufsRegularFile [97] :=
    hd.createsEntry (by decide) hdir (.inr rfl) (by decide) (by decide) (by decide)
  obtain ⟨i, hi, happends⟩ := hcreates.absent habsent 2 d' hrun (by decide)
  obtain rfl : i = 2 := by omega
  exact ⟨d, d', hd, hcreates, hrun, happends⟩

/-- The block of the new directory is that of the root, whose first entry then is the one of
the new directory. -/
theorem exists_not_createsEntry : ∃ d, Reachable 33554400 32 d ∧ Image.IsDirectory d.image 0 ∧
    ¬ CreatesEntry d 0 ufsDirectory [97] := by
  obtain ⟨d, hd, hP⟩ := exists_reachable Mkfs.mkfs_overlapping (by decide) [] (by simp)
    (P := fun d => decide (Image.IsDirectory d.image 0) &&
      decide (∀ k < Image.count d.image 0, (Image.slot d.image 0 k).cname ≠ [97]) &&
      returns (create (0 : Nat) ufsDirectory [97]) (fun r d' => decide (0 ≤ r) &&
        !decide (Image.entries d'.image 0 = Image.entries d.image 0 ++ [([97], r)])) d)
    (by decide +kernel)
  simp only [Bool.and_eq_true, decide_eq_true_eq] at hP
  obtain ⟨⟨hdir, habsent⟩, hP⟩ := hP
  obtain ⟨r, d', hrun, hP⟩ := run_of_returns hP
  simp only [Bool.and_eq_true, decide_eq_true_eq, Bool.not_eq_true',
    decide_eq_false_iff_not] at hP
  refine ⟨d, hd, hdir, fun hc => ?_⟩
  obtain ⟨i, rfl, happ⟩ := hc.absent habsent r d' hrun hP.1
  exact hP.2 happ.entries

end Gunrock
