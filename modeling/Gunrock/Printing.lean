import Gunrock.Getting
import Gunrock.Utilities

/-!
# `ds3cat`

The utility that prints a file: the numbers of its blocks, and then its bytes.  It reads them into
a buffer that it prints as a C string, and what is behind the first byte 0 is lost
(`Reachable.catsFile_iff`).
-/

namespace Gunrock

open Disk LocalFileSystem Text Utilities Wp

namespace Utilities

/-- The loop over the blocks, `n` of them from the `i`-th on. -/
def printBlocks (inode : Inode) : Nat → Nat → FS Bytes
  | 0, _ => return []
  | n + 1, i => do
    let line := decimal (← directAt inode i) ++ [10]
    return line ++ (← printBlocks inode n (i + 1))

/-- `szBuf[inode.size] = '\0'` is undefined for a negative size. -/
def ds3cat (argv : List Bytes) : FS Ended :=
  if argv.length ≠ 3 then
    return failed (arg argv 0 ++ bytes ": diskImageFile inodeNumber")
  else
    match stoi (arg argv 2) with
    | none => return { status := none }
    | some inodeNumber => do
      match ← stat inodeNumber with
      | .error _ => return failed (bytes "Error reading file")
      | .ok inode =>
        if inode.type = ufsDirectory then
          return failed (bytes "Error reading file")
        else
          let cntOfBlocks := blockCount inode.size
          let cout := bytes "File blocks\n" ++ (← printBlocks inode cntOfBlocks.toNat 0) ++ [10]
          if inode.size < 0 then
            throw .undefined
          else
            let (ret, szBuf) ← LocalFileSystem.read inodeNumber inode.size
            if ret < 0 then
              return { failed (bytes "Error reading file") with cout }
            else
              return { status := some 0, cout := cout ++ bytes "File data\n" ++ Buffer.cStr szBuf }

end Utilities

/-- The numbers of the blocks of file `i`, in order. -/
def Image.blockNumbers (im : Nat → Block) (i : Nat) : List Nat :=
  (List.range (blocksFor (inode im i).size)).map (inode im i).ptr

/-- What `ds3cat` prints of file `i` before its bytes. -/
def Image.blockLines (im : Nat → Block) (i : Nat) : Bytes :=
  bytes "File blocks\n" ++ (blockNumbers im i).flatMap (fun b => decimal b ++ [10]) ++ [10]

/-- Run with these arguments on the image of `d`, `ds3cat` exits with 0, and has printed the block
numbers of file `i` and then its bytes, whole. -/
def CatsFile (d : Disk) (argv : List Bytes) (i : Nat) : Prop :=
  ∃ d₀, Disk.new d.imageFile.size d.imageFile.block = some d₀ ∧
    wp (ds3cat argv) (fun ended _ => ended = {
      status := some 0
      cout := Image.blockLines d.image i ++ bytes "File data\n" ++ Image.content d.image i }) d₀

variable {g : Geometry} {d : Disk} {i n : Nat} {inode : Inode} {argv : List Bytes}

theorem wp_printBlocks (hn : i + n ≤ 30) {Q : Bytes → Disk → Prop}
    (hQ : Q (((List.range' i n).map inode.ptr).flatMap fun b => decimal b ++ [10]) d) :
    wp (printBlocks inode n i) Q d := by
  induction n generalizing i Q with
  | zero =>
      rw [printBlocks, wp_pure]
      exact hQ
  | succ n ih =>
      simp only [printBlocks]
      rw [wp_bind, wp_directAt (by omega), wp_bind]
      refine ih (by omega) ?_
      rw [wp_pure]
      rwa [List.range'_succ, List.map_cons, List.flatMap_cons] at hQ

theorem Serves.wp_ds3cat (h : Serves g d) (hlen : argv.length = 3)
    (harg : stoi (arg argv 2) = some (i : Int)) (hi : Image.IsFile d.image i)
    {Q : Ended → Disk → Prop}
    (hempty : Image.content d.image i = [] →
      Q ⟨some 1, Image.blockLines d.image i, bytes "Error reading file" ++ [10]⟩ d)
    (hQ : Image.content d.image i ≠ [] → Q ⟨some 0, Image.blockLines d.image i ++
      bytes "File data\n" ++ Buffer.cStr (Image.content d.image i), []⟩ d) :
    wp (ds3cat argv) Q d := by
  obtain ⟨hb, htype⟩ := h.isFile.mp hi
  have hg := h.sound.good hb
  have hnonneg := hg.size_nonneg
  have hne : ((g.volume d.image).inode i).type ≠ ufsDirectory := by
    rw [htype]
    decide
  rw [Image.blockLines, Image.blockNumbers, h.inode_eq hb, List.range_eq_range',
    h.content_eq hb] at hempty hQ
  rw [ds3cat, if_neg (not_not.mpr hlen), harg]
  dsimp only
  rw [wp_bind, wp_stat h.idle.toHolds, h.sound.stat_of_bit hb]
  dsimp only
  rw [if_neg hne, wp_bind, hg.blockCount, Int.toNat_natCast]
  refine wp_printBlocks (by have := hg.blocks_le; omega) ?_
  rw [if_neg (by omega), wp_bind]
  by_cases h0 : ((g.volume d.image).inode i).size = 0
  · rw [LocalFileSystem.read, if_pos (by omega), wp_pure]
    dsimp only
    rw [if_pos (by decide), wp_pure]
    refine hempty ?_
    rw [← List.length_eq_zero_iff, Volume.length_content, h0]
    rfl
  · have hlength := (g.volume d.image).length_content g i
    refine wp_read h.idle.toHolds h.sound hb (by omega) (by omega) ?_
    rw [List.take_of_length_le (by rw [hlength])]
    dsimp only
    rw [if_neg (by omega), wp_pure]
    refine hQ fun hnil => ?_
    rw [hnil, List.length_nil] at hlength
    omega

/-- `ds3cat` prints the whole file just when it is not empty and has no byte 0, in every state of a
run that starts from a proper layout. -/
theorem Reachable.catsFile_iff {numInodes numData : Int} (h : Reachable numInodes numData d)
    (hno : Mkfs.NoOverflow numInodes numData) (hlen : argv.length = 3)
    (harg : stoi (arg argv 2) = some (i : Int)) (hi : Image.IsFile d.image i) :
    CatsFile d argv i ↔ Image.content d.image i ≠ [] ∧ (0 : UInt8) ∉ Image.content d.image i := by
  obtain ⟨g, -, -, hs, -⟩ := h.serves hno
  refine hs.exists_new_iff.trans (wp_iff_of_wp ?_)
  refine hs.bootDisk.wp_ds3cat hlen harg hi (fun hempty => ?_) fun hne => ?_
  · exact iff_of_false (fun heq => by cases heq) fun hc => hc.1 hempty
  · simp only [Geometry.image_bootDisk] at hne ⊢
    simp only [Ended.mk.injEq, List.append_cancel_left_eq, true_and, and_true]
    refine ⟨fun heq => ⟨hne, ?_⟩, fun hc => Buffer.cStr_of_notMem hc.2⟩
    have hz := Buffer.zero_notMem_cStr (Image.content d.image i)
    rwa [heq] at hz

theorem exists_catsFile_iff : ∃ d, Reachable 32 32 d ∧
    (CatsFile d [[], [], [49]] 1 ↔
      Image.content d.image 1 ≠ [] ∧ (0 : UInt8) ∉ Image.content d.image 1) := by
  obtain ⟨d, hd, -, hfile, -⟩ := exists_reachable_file
  exact ⟨d, hd, hd.catsFile_iff (by decide) rfl (by decide) hfile⟩

/-- `ds3cat a.img 1` on a file that `create` made and nobody wrote: it exits with 1. -/
theorem exists_not_catsFile : ∃ d, Reachable 32 32 d ∧ Image.IsFile d.image 1 ∧
    ¬ CatsFile d [[], [], [49]] 1 := by
  obtain ⟨d, hd, hP⟩ := exists_reachable Mkfs.mkfs_ordinary (by decide)
    [.create 0 ufsRegularFile [97]] (by decide)
    (P := fun d => decide (Image.IsFile d.image 1) &&
      (Disk.new d.imageFile.size d.imageFile.block).any
        (returns (ds3cat [[], [], [49]]) fun ended _ => ended.status = some 1))
    (by decide +kernel)
  rw [Bool.and_eq_true, decide_eq_true_eq] at hP
  refine ⟨d, hd, hP.1, fun hcats => ?_⟩
  obtain ⟨_, d', hstatus, rfl⟩ := exists_of_returns hP.2 hcats
  cases of_decide_eq_true hstatus

end Gunrock
