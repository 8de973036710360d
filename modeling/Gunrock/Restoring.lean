import Gunrock.Effects

/-!
# Creating and removing again

A `create`, any number of calls of `write` to the new inode and an `unlink` of the new entry
leave the bitmaps, the parent directory and every other inode as they were.

`Rewritten` is the invariant of the writes.  That the data bitmap comes back is not followed
through the three calls: both volumes are sound, a sound bitmap marks what is owned, and who
owns what is the same before and after.
-/

namespace Gunrock

open Disk LocalFileSystem Wp

/-- Calls of `write` to inode `n`, whatever their buffers and their answers. -/
inductive Writes (n : Int) : Disk → Disk → Prop
  | none {d : Disk} : Writes n d d
  | call {d d₁ d₂ : Disk} {buf : Option (Nat → UInt8)} {size r : Int} : Writes n d d₁ →
      size ≤ 2 ^ 31 - 4096 → (write n buf size).run d₁ = .ok (r, d₂) → Writes n d d₂

/-- On the disk `d'`, everything but inode `n` is what it was on the disk `d`: the bitmaps, the
size and the entries of directory `p`, and all other inodes. -/
structure Restored (d d' : Disk) (p : Nat) (n : Int) : Prop where
  inodeBitmap : ∀ i : Nat, (i : Int) < 32768 * (Image.super d.image).inodeBitmapLen →
    Image.inodeBit d'.image i = Image.inodeBit d.image i
  dataBitmap : ∀ c : Nat, (c : Int) < 32768 * (Image.super d.image).dataBitmapLen →
    Image.dataBit d'.image c = Image.dataBit d.image c
  directory : Image.IsDirectory d'.image p
  size : (Image.inode d'.image p).size = (Image.inode d.image p).size
  entries : Image.entries d'.image p = Image.entries d.image p
  kept : ∀ i, Image.Allocated d.image i → i ≠ p → Image.Kept d.image d'.image i
  inode : ∀ i : Nat, (i : Int) < (Image.super d.image).numInodes → i ≠ p → (i : Int) ≠ n →
    Image.inode d'.image i = Image.inode d.image i

variable {g : Geometry} {d d' d₁ d₂ : Disk} {v w : Volume} {i k n p : Nat} {name : Bytes}
  {type r : Int} {numInodes numData : Int}

/-! ## The writes -/

/-- The volume `w` is `v` after writes to inode `n`, none of which succeeded if `n` is a
directory. -/
structure Rewritten (g : Geometry) (v w : Volume) (n : Nat) : Prop where
  sound : Sound g w
  inodeBit : w.inodeBit = v.inodeBit
  inode : ∀ i, i ≠ n → w.inode i = v.inode i
  same : ∀ i, v.inodeBit i = true → i ≠ n → Same g v w i
  directory : (v.inode n).type = ufsDirectory → Same g v w n
  type : (w.inode n).type = (v.inode n).type

namespace Rewritten

theorem refl (hs : Sound g v) : Rewritten g v v n :=
  ⟨hs, rfl, fun _ _ => rfl, fun i _ _ => .refl v i, fun _ => .refl v n, rfl⟩

theorem write {size : Nat} {buf : Nat → UInt8} {scratch : Block} (h : Rewritten g v w n)
    (hw : CanWrite g w n size) : Rewritten g v (w.rewrite g n buf size scratch) n := by
  refine ⟨hw.sound h.sound, ?_, fun i hi => ?_, fun i hb hi => ?_, fun hd => ?_, ?_⟩
  · exact h.inodeBit
  · rw [CanWrite.inode_of_ne hi, h.inode i hi]
  · refine (h.same i hb hi).trans (hw.same h.sound ?_ hi)
    rw [h.inodeBit]
    exact hb
  · exact absurd (h.type.trans hd) hw.type_ne
  · rw [CanWrite.inode_self]
    exact h.type

/-- An entry for `n` can be removed after the writes as well as before. -/
theorem canRemove (h : Rewritten g v w n) (hr : CanRemove g v i name k n) :
    CanRemove g w i name k n := by
  have hle := v.count_le_blocks i
  have hk := hr.lt_count
  have hsame := h.same i hr.bit hr.removable.ne
  refine ⟨hsame.inodeBit.trans hr.bit, ?_, hr.name_ne, hr.two_le, ?_, ?_, ?_, fun hd => ?_⟩
  · rw [hsame.inode]
    exact hr.dir
  · rw [hsame.count]
    exact hk
  · rw [hsame.entry (by omega)]
    exact hr.cname
  · rw [hsame.entry (by omega)]
    exact hr.inum
  · rw [h.type] at hd
    rw [(h.directory hd).count]
    exact hr.empty hd

end Rewritten

/-- One call of `write`. -/
theorem Rewritten.wp_write (h : Rewritten g v (g.volume d.image) n) (hs : Serves g d)
    (buf : Option (Nat → UInt8)) {size : Int} (hsize : size ≤ 2 ^ 31 - 4096) :
    wp (LocalFileSystem.write n buf size)
      (fun _ d' => Serves g d' ∧ Rewritten g v (g.volume d'.image) n) d := by
  refine Gunrock.wp_write hs.idle hs.sound hsize (fun r _ _ d' hd' him => ?_)
    fun i m f scratch d' hi _ _ hw _ hd' => ?_
  · rw [him]
    exact ⟨hs.of_image hd', h⟩
  · obtain rfl : n = i := by omega
    refine ⟨.of_idle hd' (hw.sound hs.sound), ?_⟩
    rw [hd'.volume]
    exact h.write hw

theorem Writes.rewritten (h : Writes n d d₁) (hs : Serves g d) :
    Serves g d₁ ∧ Rewritten g (g.volume d.image) (g.volume d₁.image) n := by
  induction h with
  | none => exact ⟨hs, .refl hs.sound⟩
  | call _ hsize hrun ih => exact wlp_of_wp (ih.2.wp_write ih.1 _ hsize) _ _ hrun

/-! ## There and back -/

namespace CanCreate

section

variable (hc : CanCreate g v i type) (hs : Sound g v)
  (hn : NewName g v i name)

include hc hs

theorem count_parent : (v.created g i type name).count i = v.count i + 1 := by
  rw [hc.same_parent.count, CanAppend.count_self, (hc.same_first hs hc.bit).count]

theorem ptr_parent {x : Nat} (hx : x < v.blocks i) :
    (v.created g i type name).ptr g i x = v.ptr g i x := by
  have hfirst := hc.same_first hs hc.bit
  rw [hc.same_parent.ptr, CanAppend.ptr_of_lt (by rwa [hfirst.blocks]), hfirst.ptr]

include hn in
/-- The new entry can be removed. -/
theorem canRemove (hne : name ≠ []) (hname : (0 : UInt8) ∉ name) :
    CanRemove g (v.created g i type name) i name (v.count i) (v.newInum g) := by
  have hfirst := hc.same_first hs hc.bit
  have hslots := (hs.good hc.bit).slots hc.dir
  have hge := hslots.count_ge
  have hcount : (v.created g i type name).count i = v.count i + 1 := hc.count_parent hs
  have hle := (v.created g i type name).count_le_blocks i
  have happend := hc.canAppend hs
  have hentry := happend.entry_count (hc.storable hn)
  have hleA := ((v.withFirst g i type).append g i name (v.newInum g)).count_le_blocks i
  rw [CanAppend.count_self, hfirst.count] at hleA
  rw [hfirst.count] at hentry
  rw [← hc.same_parent.entry (by omega), Buffer.cStr_of_notMem hname] at hentry
  refine ⟨?_, ?_, hne, hge, by omega, hentry.1, hentry.2, fun hd => ?_⟩
  · rw [inodeBit_created, Function.update_of_ne (hc.ne_newInum hc.bit)]
    exact hc.bit
  · rw [hc.same_parent.inode, CanAppend.type_self, hfirst.inode]
    exact hc.dir
  · have htype : type = ufsDirectory := by
      rw [hc.inode_new, newInode] at hd
      split at hd <;> exact hd
    rw [hc.count_newDir htype]

end

end CanCreate

/-- The volume `u` is `v` again, apart from inode `n`, which is free in both. -/
structure GivenBack (g : Geometry) (v u : Volume) (p n : Nat) : Prop where
  inodeBit : u.inodeBit = v.inodeBit
  dataBit : u.dataBit = v.dataBit
  inode : ∀ i, i ≠ p → i ≠ n → u.inode i = v.inode i
  same : ∀ i, v.inodeBit i = true → i ≠ p → Same g v u i
  type : (u.inode p).type = (v.inode p).type
  size : (u.inode p).size = (v.inode p).size
  entries : u.entries g p = v.entries g p

namespace Rewritten

variable (h : Rewritten g (v.created g p type name) w (v.newInum g)) (hc : CanCreate g v p type)

include h hc

/-- The writes have left the parent alone. -/
theorem parent : Same g (v.created g p type name) w p := by
  have hin := hc.ne_newInum hc.bit
  refine h.same p ?_ hin
  rw [CanCreate.inodeBit_created, Function.update_of_ne hin]
  exact hc.bit

theorem count_parent (hs : Sound g v) : w.count p = v.count p + 1 := by
  rw [(h.parent hc).count, hc.count_parent hs]

/-- The parent's last block goes if `create` has added it, and only then. -/
theorem blocksLeft (hs : Sound g v) : w.blocksLeft p = v.blocks p := by
  rw [Volume.blocksLeft, h.count_parent hc hs, ((hs.good hc.bit).slots hc.dir).blocks_eq,
    Nat.add_sub_cancel]

theorem inodeBit_removed :
    (w.removed g p (v.count p) (v.newInum g)).inodeBit = v.inodeBit := by
  rw [CanRemove.inodeBit_removed, h.inodeBit, CanCreate.inodeBit_created, Function.update_idem,
    ← (newInum_free hc.inode).2, Function.update_eq_self]

omit hc in
theorem inode_removed {i : Nat} (hip : i ≠ p) (hin : i ≠ v.newInum g) :
    (w.removed g p (v.count p) (v.newInum g)).inode i = v.inode i := by
  rw [CanRemove.inode_of_ne hip, h.inode i hin]
  simp only [Volume.created, Volume.inode_setInode, Function.update_of_ne hin]
  rw [CanAppend.inode_of_ne hip, Volume.withFirst]
  split <;> rfl

variable (hs : Sound g v) (hr : CanRemove g w p name (v.count p) (v.newInum g))

include hs hr

theorem same_removed {i : Nat} (hb : v.inodeBit i = true) (hip : i ≠ p) :
    Same g v (w.removed g p (v.count p) (v.newInum g)) i := by
  have hin := hc.ne_newInum hb
  have hcreated : Same g v (v.created g p type name) i := hc.same hs hb hip
  have hwritten := h.same i (hcreated.inodeBit.trans hb) hin
  have hremoved := hr.same h.sound (hwritten.inodeBit.trans (hcreated.inodeBit.trans hb)) hip hin
  exact (hcreated.trans hwritten).trans hremoved

/-- Everybody owns what they owned. -/
theorem owned_removed : (w.removed g p (v.count p) (v.newInum g)).owned g = v.owned g := by
  have hbits := h.inodeBit_removed hc
  funext i
  cases hb : v.inodeBit i with
  | false => rw [Volume.owned_of_clear hb, Volume.owned_of_clear (by rw [hbits]; exact hb)]
  | true =>
      by_cases hip : i = p
      · subst hip
        rw [hr.owned_self h.sound, Volume.owned_of_bit hb, h.blocksLeft hc hs]
        refine List.map_congr_left fun x hx => ?_
        rw [(h.parent hc).ptr, hc.ptr_parent hs (List.mem_range.mp hx)]
      · exact (h.same_removed hc hs hr hb hip).owned

theorem givenBack (hn : NewName g v p name) :
    GivenBack g v (w.removed g p (v.count p) (v.newInum g)) p (v.newInum g) := by
  have hparent := h.parent hc
  have hslots := (hs.good hc.bit).slots hc.dir
  refine ⟨h.inodeBit_removed hc, ?_, fun i => h.inode_removed, fun i => h.same_removed hc hs hr,
    ?_, ?_, ?_⟩
  · funext c
    have hremoved := (hr.sound h.sound).owned.used_iff c
    rw [h.owned_removed hc hs hr] at hremoved
    exact Bool.eq_iff_iff.mpr (hremoved.trans (hs.owned.used_iff c).symm)
  · rw [CanRemove.inode_self, hc.dir]
    exact hr.dir
  · rw [CanRemove.size_self, h.count_parent hc hs, Nat.add_sub_cancel, hslots.size_eq]
  · rw [hr.entries_self h.sound, hparent.entries, hc.entries_parent hs hn,
      List.eraseIdx_append_of_length_le (by simp), Volume.length_entries, Nat.sub_self]
    simp

end Rewritten

/-! ## On the disk -/

theorem Serves.restored (hs : Serves g d) (hs' : Serves g d₁) (hdir : Image.IsDirectory d.image p)
    (h : GivenBack g (g.volume d.image) (g.volume d₁.image) p n) : Restored d d₁ p n := by
  obtain ⟨hb, ht⟩ := hs.isDirectory.mp hdir
  have hb' : (g.volume d₁.image).inodeBit p = true := by
    rw [h.inodeBit]
    exact hb
  have hdir' : Image.IsDirectory d₁.image p := hs'.isDirectory.mpr ⟨hb', h.type.trans ht⟩
  refine ⟨fun i hi => ?_, fun c hc => ?_, hdir', ?_, ?_, fun i hi hip => ?_, fun i hi hip hin => ?_⟩
  · rw [hs.super_eq] at hi
    have hi : (i : Int) < 32768 * (g.inodeBitmapLen : Int) := hi
    rw [hs.inodeBit_eq (by omega), hs'.inodeBit_eq (by omega), h.inodeBit]
  · rw [hs.super_eq] at hc
    have hc : (c : Int) < 32768 * (g.dataBitmapLen : Int) := hc
    rw [hs.dataBit_eq (by omega), hs'.dataBit_eq (by omega), h.dataBit]
  · rw [hs'.inode_eq hb', hs.inode_eq hb, h.size]
  · rw [hs'.entries_eq hdir', hs.entries_eq hdir, h.entries]
  · have hbi := hs.allocated.mp hi
    exact hs.kept hs' hbi (h.same i hbi hip)
  · rw [hs.super_eq] at hi
    have hi : i < g.numInodes := Int.ofNat_lt.mp hi
    rw [hs.inode_eq_of_lt hi, hs'.inode_eq_of_lt hi, h.inode i hip (by omega)]

/-- What a `create` that did not fail has done: it has found an inode, or made one. -/
theorem Serves.of_create (hs : Serves g d) (ht : type = ufsDirectory ∨ type = ufsRegularFile)
    (hrun : (create p type name).run d = .ok (r, d₁)) (hr : 0 ≤ r) :
    (∃ j : Nat, r = j ∧ findName (nodes g d) p name = j ∧ d₁ = d) ∨
      (Creates g (g.volume d.image) p type name ∧ r = (g.volume d.image).newInum g ∧
        Idle g d₁ ((g.volume d.image).created g p type name)) := by
  have hw : wp (create p type name) (fun r d₁ => 0 ≤ r →
      (∃ j : Nat, r = j ∧ findName (nodes g d) p name = j ∧ d₁ = d) ∨
      (Creates g (g.volume d.image) p type name ∧ r = (g.volume d.image).newInum g ∧
        Idle g d₁ ((g.volume d.image).created g p type name))) d := by
    refine wp_create hs.idle hs.sound (fitsInt_type ht) (fun r hneg _ d' _ _ hpos => by omega)
      (fun j hj _ _ => .inl ⟨j, rfl, hj, rfl⟩) fun i hi hc d' hd' _ => ?_
    obtain rfl : p = i := by omega
    exact .inr ⟨hc, rfl, hd'⟩
  exact wlp_of_wp hw _ _ hrun hr

/-- A new entry, writes to its inode, and the entry removed again. -/
theorem Serves.restores (hs : Serves g d) (ht : type = ufsDirectory ∨ type = ufsRegularFile)
    (hc : Creates g (g.volume d.image) p type name) (hname : (0 : UInt8) ∉ name)
    (hd₁ : Idle g d₁ ((g.volume d.image).created g p type name))
    (hw : Writes ((g.volume d.image).newInum g) d₁ d₂) :
    wp (unlink p name) (fun r d' => r = 0 ∧ Restored d d' p ((g.volume d.image).newInum g)) d₂ := by
  have hs₁ : Serves g d₁ := .of_idle hd₁ (hc.sound hs.sound ht hc.toNewName)
  obtain ⟨hs₂, h⟩ := hw.rewritten hs₁
  rw [hd₁.volume] at h
  have hr := h.canRemove (hc.canRemove hs.sound hc.toNewName hc.name_ne hname)
  refine hr.wp_unlink hs₂.idle hs₂.sound fun d' hd' => ⟨rfl, ?_⟩
  have hs' : Serves g d' := .of_idle hd' (hr.sound hs₂.sound)
  refine hs.restored hs' (hs.isDirectory.mpr ⟨hc.bit, hc.dir⟩) ?_
  rw [hd'.volume]
  exact h.givenBack hc.toCanCreate hs.sound hr hc.toNewName

/-- `unlink` looks for the whole name, and no entry has a name with a NUL in it. -/
theorem Serves.wp_unlink_nul (hs : Serves g d) (hname : (0 : UInt8) ∈ name) :
    wp (unlink p name) (fun r _ => r < 0) d :=
  wp_unlink hs.idle hs.sound (fun r hneg _ _ _ _ => hneg) fun i k j _ hr _ _ => by
    rw [← hr.cname] at hname
    exact absurd hname (Buffer.zero_notMem_cStr _)

/-- Every directory has `.` and `..`. -/
theorem Serves.not_dots_of_absent (hs : Serves g d) (hdir : Image.IsDirectory d.image p)
    (habsent : ∀ k < Image.count d.image p, (Image.slot d.image p k).cname ≠ name) :
    ¬ (name = dot ∨ name = dotdot) := by
  have hb := (hs.isDirectory.mp hdir).1
  have hslots := hs.goodSlots hdir
  have hge := hslots.count_ge
  have hle := (g.volume d.image).count_le_blocks p
  have hcount := hs.count_eq hb
  rintro (rfl | rfl)
  · refine habsent 0 (by omega) ?_
    rw [hs.slot_eq hb (by omega), hslots.self.1]
  · refine habsent 1 (by omega) ?_
    rw [hs.slot_eq hb (by omega), hslots.parent.1]

/-- What `create` and the writes have taken, an `unlink` that succeeds gives back: in every state
of a run that starts from a proper layout. -/
theorem Reachable.unlink_restores (h : Reachable numInodes numData d)
    (hno : Mkfs.NoOverflow numInodes numData) (hdir : Image.IsDirectory d.image p)
    (ht : type = ufsDirectory ∨ type = ufsRegularFile)
    (habsent : ∀ k < Image.count d.image p, (Image.slot d.image p k).cname ≠ name)
    (hrun : (create p type name).run d = .ok (r, d₁)) (hr : 0 ≤ r) (hw : Writes r d₁ d₂)
    (hunlink : (unlink p name).run d₂ = .ok (0, d')) : Restored d d' p r := by
  obtain ⟨g, -, -, hs, -⟩ := h.serves hno
  -- `create` takes a name with a NUL in it, but there is nothing then that `unlink` finds
  have hname : ∀ {d₂ : Disk}, Serves g d₂ → (unlink p name).run d₂ = .ok (0, d') →
      (0 : UInt8) ∉ name := fun hs₂ hunlink hmem =>
    absurd (wlp_of_wp (hs₂.wp_unlink_nul hmem) _ _ hunlink) (by decide)
  rcases hs.of_create ht hrun hr with ⟨j, rfl, hfind, rfl⟩ | ⟨hc, rfl, hd₁⟩
  · -- an inode that was found is that of an entry with the name
    have hnul := hname (hw.rewritten hs).1 hunlink
    obtain ⟨k, hk, hcname, -⟩ :=
      (hs.findName_slot hdir hnul (hs.not_dots_of_absent hdir habsent) j).mp hfind
    exact absurd hcname (habsent k hk)
  · have hs₁ : Serves g d₁ := .of_idle hd₁ (hc.sound hs.sound ht hc.toNewName)
    have hnul := hname (hw.rewritten hs₁).1 hunlink
    exact (wlp_of_wp (hs.restores ht hc hnul hd₁ hw) _ _ hunlink).2

/-- A file is created, grows to two blocks and shrinks to one before it is removed. -/
theorem exists_unlink_restores : ∃ d d₁ d₂ d', Reachable 32 32 d ∧
    (create (0 : Nat) ufsRegularFile [97]).run d = .ok (1, d₁) ∧ Writes 1 d₁ d₂ ∧
    (unlink (0 : Nat) [97]).run d₂ = .ok (0, d') ∧ Restored d d' 0 1 := by
  obtain ⟨d, hd, hP⟩ := exists_reachable Mkfs.mkfs_ordinary (by decide) [] (by simp)
    (P := fun d => decide (Image.IsDirectory d.image 0) &&
      decide (∀ k < Image.count d.image 0, (Image.slot d.image 0 k).cname ≠ [97]) &&
      returns (create (0 : Nat) ufsRegularFile [97]) (fun r =>
        returns (write r (some fun _ => 65) 5000) fun _ =>
          returns (write r (some fun _ => 66) 1) fun _ d₂ => decide (r = 1) &&
            decide (result (unlink (0 : Nat) [97]) d₂ = some 0)) d) (by decide +kernel)
  rw [Bool.and_eq_true, Bool.and_eq_true, decide_eq_true_eq, decide_eq_true_eq] at hP
  obtain ⟨⟨hdir, habsent⟩, hP⟩ := hP
  obtain ⟨r, d₁, hcreate, hP⟩ := run_of_returns hP
  obtain ⟨_, dg, hgrow, hP⟩ := run_of_returns hP
  obtain ⟨_, d₂, hshrink, hP⟩ := run_of_returns hP
  rw [Bool.and_eq_true, decide_eq_true_eq, decide_eq_true_eq] at hP
  obtain ⟨rfl, hunlink⟩ := hP
  obtain ⟨d', hunlink⟩ := run_of_result hunlink
  have hwrites : Writes 1 d₁ d₂ := (Writes.none.call (by decide) hgrow).call (by decide) hshrink
  exact ⟨d, d₁, d₂, d', hd, hcreate, hwrites, hunlink, hd.unlink_restores (by decide) hdir
    (.inr rfl) habsent hcreate (by decide) hwrites hunlink⟩

/-- Where the data bitmap and the root directory are one block, the bits of the new entry's name
stay behind. -/
theorem exists_not_restores : ∃ d d₁ d', Reachable 33554400 32 d ∧ Image.IsDirectory d.image 0 ∧
    (∀ k < Image.count d.image 0, (Image.slot d.image 0 k).cname ≠ [97]) ∧
    (create (0 : Nat) ufsRegularFile [97]).run d = .ok (1, d₁) ∧ Writes 1 d₁ d₁ ∧
    (unlink (0 : Nat) [97]).run d₁ = .ok (0, d') ∧ ¬ Restored d d' 0 1 := by
  obtain ⟨d, hd, hP⟩ := exists_reachable Mkfs.mkfs_overlapping (by decide) [] (by simp)
    (P := fun d => decide (Image.IsDirectory d.image 0) &&
      decide (∀ k < Image.count d.image 0, (Image.slot d.image 0 k).cname ≠ [97]) &&
      decide (((512 : Nat) : Int) < 32768 * (Image.super d.image).dataBitmapLen) &&
      returns (create (0 : Nat) ufsRegularFile [97]) (fun r => returns (unlink (0 : Nat) [97])
        fun r' d' => decide (r = 1) && decide (r' = 0) &&
          decide (Image.dataBit d'.image 512 ≠ Image.dataBit d.image 512)) d) (by decide +kernel)
  simp only [Bool.and_eq_true, decide_eq_true_eq] at hP
  obtain ⟨⟨⟨hdir, habsent⟩, hlt⟩, hP⟩ := hP
  obtain ⟨r, d₁, hcreate, hP⟩ := run_of_returns hP
  obtain ⟨r', d', hunlink, hP⟩ := run_of_returns hP
  simp only [Bool.and_eq_true, decide_eq_true_eq] at hP
  obtain ⟨⟨rfl, rfl⟩, hne⟩ := hP
  exact ⟨d, d₁, d', hd, hdir, habsent, hcreate, .none, hunlink, fun h => hne (h.dataBitmap 512 hlt)⟩

end Gunrock
