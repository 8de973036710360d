import Gunrock.Effects

/-!
# Calls return

In a state of a run no call of the file system makes the disk exit, whatever its
arguments, and no call writes outside the regions.  That a call returns is the stronger
statement: `readBlock` and `writeBlock` throw at any block number out of range, and so does
everything that is undefined.

The exception are the sizes at the end of an `int`: `write` adds to the size before it compares
it with the largest one, and what overflows there passes the check.
-/

namespace Gunrock

open Disk LocalFileSystem Wp

variable {g : Geometry} {d d' : Disk} {v : Volume} {numInodes numData : Int} {α : Type}

/-- The call returns, and every block that was ever written lies in one of the regions that
the superblock delimits, which block 0 does not. -/
def Safe (d : Disk) (call : FS α) : Prop :=
  wp call (fun _ d' => ∀ b ∈ d'.written, b ≠ 0 ∧ (Image.super d.image).InRegion b) d

/-- What was written so far was written in order. -/
theorem Serves.inRegion_written (h : Serves g d) (hd : Holds g d' v) :
    ∀ b ∈ d'.written, b ≠ 0 ∧ (Image.super d.image).InRegion b := by
  intro b hb
  have hregion := hd.written b hb
  rw [h.super_eq]
  refine ⟨?_, hregion⟩
  rw [g.inRegion_iff] at hregion
  omega

namespace Serves

variable (h : Serves g d)

include h

theorem safe_create (p : Int) {type : Int} (ht : Buffer.FitsInt type) (name : Bytes) :
    Safe d (create p type name) :=
  wp_create h.idle h.sound ht (fun _ _ _ _ hd' _ => h.inRegion_written hd'.toHolds)
    (fun _ _ _ => h.inRegion_written h.idle.toHolds)
    fun _ _ _ _ hd' => h.inRegion_written hd'.toHolds

theorem safe_write (n : Int) (buf : Option (Nat → UInt8)) {size : Int}
    (hsize : size ≤ 2 ^ 31 - 4096) : Safe d (write n buf size) :=
  wp_write h.idle h.sound hsize (fun _ _ _ _ hd' _ => h.inRegion_written hd'.toHolds)
    fun _ _ _ _ _ _ _ _ _ _ hd' => h.inRegion_written hd'.toHolds

theorem safe_unlink (p : Int) (name : Bytes) : Safe d (unlink p name) :=
  wp_unlink h.idle h.sound (fun _ _ _ _ hd' _ => h.inRegion_written hd'.toHolds)
    fun _ _ _ _ _ _ hd' => h.inRegion_written hd'.toHolds

theorem safe_lookup (p : Int) (name : Bytes) : Safe d (lookup p name) :=
  wp_lookup h.idle.toHolds h.sound p name (h.inRegion_written h.idle.toHolds)

theorem safe_stat (n : Int) : Safe d (stat n) :=
  (wp_stat h.idle.toHolds n).mpr (h.inRegion_written h.idle.toHolds)

end Serves

/-- In a state of a run that starts from a proper layout, no call is the end of the
server. -/
theorem Reachable.safe (h : Reachable numInodes numData d)
    (hno : Mkfs.NoOverflow numInodes numData) :
    (∀ p type name, Buffer.FitsInt type → Safe d (create p type name)) ∧
    (∀ n buf (size : Int), size ≤ 2 ^ 31 - 4096 → Safe d (write n buf size)) ∧
    (∀ p name, Safe d (unlink p name)) ∧ (∀ p name, Safe d (lookup p name)) ∧
    ∀ n, Safe d (stat n) := by
  obtain ⟨g, -, -, hs, -⟩ := h.serves hno
  exact ⟨fun p _ name ht => hs.safe_create p ht name, fun n buf _ hsize => hs.safe_write n buf hsize,
    hs.safe_unlink, hs.safe_lookup, hs.safe_stat⟩

theorem exists_safe : ∃ d, Reachable 32 32 d ∧ Image.IsFile d.image 1 ∧
    Safe d (unlink 0 [97]) ∧ Safe d (stat 736) := by
  obtain ⟨d, hd, -, hfile, -⟩ := exists_reachable_file
  obtain ⟨-, -, hunlink, -, hstat⟩ := hd.safe (by decide)
  exact ⟨d, hd, hfile, hunlink 0 [97], hstat 736⟩

/-- An inode table that is not in the image: `stat` is the end of the server. -/
theorem exists_not_safe : ∃ d, Reachable 33521664 32 d ∧ ¬ Safe d (stat 736) := by
  obtain ⟨d, hd, hP⟩ := exists_reachable Mkfs.mkfs_backwards (by decide) [] (by simp)
    (P := fun d => !((stat 736).run d).isOk) (by decide +kernel)
  refine ⟨d, hd, fun hs => ?_⟩
  obtain ⟨r, d', hrun, -⟩ := hs
  rw [hrun] at hP
  cases hP

/-! ## The size of a write -/

variable {f : Nat} {buf : Nat → UInt8} {size : Int}

/-- A `write` of more than the largest file fails and changes nothing, and no `write` leads
outside the array of direct pointers. -/
structure ChecksSize (d : Disk) (f : Nat) (buf : Nat → UInt8) (size : Int) : Prop where
  refused : 30 * 4096 < size → ∃ d',
    (write f (some buf) size).run d = .ok (-eNotEnoughSpace, d') ∧ d'.image = d.image
  inBounds : (write f (some buf) size).run d ≠ .error .undefined

namespace Serves

theorem checksSize (h : Serves g d) (hsize : size ≤ 2 ^ 31 - 4096) : ChecksSize d f buf size := by
  constructor
  · intro hlarge
    have hcnt : ((directPtrs : Nat) : Int) < blockCount size := by
      rw [blockCount_eq (by omega) hsize, blocksFor]
      simp only [directPtrs]
      omega
    refine ⟨d, ?_, rfl⟩
    dsimp only [write]
    rw [if_neg (by omega), if_pos hcnt]
    rfl
  · obtain ⟨r, d', hrun, -⟩ := h.safe_write f (some buf) hsize
    rw [hrun]
    intro hcrash
    cases hcrash

/-- With a negative number of blocks all blocks of the file are too many. -/
theorem run_write_large (h : Serves g d) (hf : Image.IsFile d.image f)
    (hlarge : 2 ^ 31 - 4096 < size) (hlt : size < 2 ^ 31) :
    (write f (some buf) size).run d = .error .undefined := by
  obtain ⟨hb, ht⟩ := h.isFile.mp hf
  have hcnt := blockCount_neg hlarge hlt
  obtain ⟨s, d₁, hread, hd₁⟩ : wp readSuperBlock (fun _ d' => d = d') d :=
    (wp_readSuperBlock h.idle.toHolds).mpr rfl
  subst hd₁
  obtain ⟨⟨⟩, d', hbegin, -⟩ : wp beginTransaction (fun _ _ => True) d :=
    h.idle.wp_beginTransaction fun _ _ => trivial
  dsimp only [write]
  rw [if_neg (by omega), if_neg (by simp only [directPtrs]; omega), run_bind_of_ok (h.stats hf.1)]
  dsimp only
  rw [if_neg (by simpa using hf.2), run_bind_of_ok hread, run_bind_of_ok hbegin, h.inode_eq hb,
    (h.sound.good hb).blockCount]
  exact run_bind_error (run_resize_neg (Int.natCast_nonneg _) hcnt)

end Serves

/-- The sizes at the end of an `int` pass the check, and no others, in every state of a run that
starts from a proper layout. -/
theorem Reachable.checksSize_iff (h : Reachable numInodes numData d)
    (hno : Mkfs.NoOverflow numInodes numData) (hf : Image.IsFile d.image f)
    (hsize : Buffer.FitsInt size) : ChecksSize d f buf size ↔ size ≤ 2 ^ 31 - 4096 := by
  obtain ⟨g, -, -, hs, -⟩ := h.serves hno
  refine ⟨fun hc => ?_, fun hle => hs.checksSize hle⟩
  by_contra hlarge
  exact hc.inBounds (hs.run_write_large hf (by omega) hsize.2)

theorem exists_checksSize_iff : ∃ d, Reachable 32 32 d ∧ Image.IsFile d.image 1 ∧
    (ChecksSize d 1 (fun _ => 65) 122881 ↔ (122881 : Int) ≤ 2 ^ 31 - 4096) := by
  obtain ⟨d, hd, -, hfile, -⟩ := exists_reachable_file
  exact ⟨d, hd, hfile, hd.checksSize_iff (by decide) hfile ⟨by decide, by decide⟩⟩

/-- The number of blocks is -524287. -/
theorem exists_not_checksSize : ∃ d, Reachable 32 32 d ∧ Image.IsFile d.image 1 ∧
    ¬ ChecksSize d 1 (fun _ => 65) (2 ^ 31 - 1) := by
  obtain ⟨d, hd, -, hfile, -⟩ := exists_reachable_file
  obtain ⟨g, -, -, hs, -⟩ := hd.serves (by decide)
  exact ⟨d, hd, hfile, fun hc => hc.inBounds (hs.run_write_large hfile (by decide) (by decide))⟩

end Gunrock
