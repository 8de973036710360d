import Gunrock.Effects
import Gunrock.Library.Script

/-!
# The blocks that `read` reads

The loop of `read` goes through all thirty direct pointers of an inode and not through the
blocks of the file.  Pointers behind the last block do no harm, since the loop ends before it
comes to them, unless the file is empty: then it reads the first block that is not `0`,
whatever an earlier owner of the inode or `mkfs` left there.

Which blocks are read is not to be seen in what `read` returns, so the loop is written a second
time as a script of `readBlock`s (`Fetch.readFrom`), whose run is the loop (`Fetch.run_readFrom`).
-/

namespace Gunrock

open Disk LocalFileSystem Wp

variable {g : Geometry} {d : Disk} {v : Volume} {inode : Inode} {i m n x : Nat} {remaining : Int}
  {buffer : Bytes} {numInodes numData : Int}

/-! ## The loop as a script -/

namespace Fetch

/-- The loop of `read`; there is no buffer where a copy has negative length. -/
def readFrom (inode : Inode) : Nat → Nat → Int → Bytes → Script Int Block (Option Bytes)
  | 0, _, _, buffer => return some buffer
  | n + 1, i, remaining, buffer => do
    let dataBlockIndex := inode.ptr i
    if dataBlockIndex = 0 then
      readFrom inode n (i + 1) remaining buffer
    else
      let tempBuffer ← Script.ask (Buffer.signed dataBlockIndex)
      let copySize := min (ufsBlockSize : Int) remaining
      if copySize < 0 then
        return none
      else
        let buffer := buffer ++ (List.range copySize.toNat).map tempBuffer.get
        if remaining - copySize ≤ 0 then
          return some buffer
        else
          readFrom inode n (i + 1) (remaining - copySize) buffer

/-- What the loop returns. -/
def returned : Option Bytes → FS Bytes
  | some buffer => return buffer
  | none => throw .undefined

theorem run_readFrom (inode : Inode) (n i : Nat) (remaining : Int) (buffer : Bytes) :
    (readFrom inode n i remaining buffer).run readBlock >>= returned =
      LocalFileSystem.readFrom inode n i remaining buffer := by
  induction n generalizing i remaining buffer with
  | zero =>
      rw [readFrom, LocalFileSystem.readFrom, Script.pure_eq, Script.run_ret, pure_bind]
      rfl
  | succ n ih =>
      rw [readFrom, LocalFileSystem.readFrom]
      dsimp only
      split
      · exact ih _ _ _
      · rw [Script.run_ask_bind, bind_assoc]
        refine bind_congr fun tempBuffer => ?_
        split
        · rw [Script.pure_eq, Script.run_ret, pure_bind]
          rfl
        · split
          · rw [Script.pure_eq, Script.run_ret, pure_bind]
            rfl
          · exact ih _ _ _

/-- Bytes that are there are read from blocks that are owned. -/
theorem all_readFrom (hg : GoodInode g v i) (hpos : 0 < remaining)
    (hle : 4096 * x + remaining ≤ (v.inode i).size) :
    (readFrom (v.inode i) n x remaining buffer).All
      fun b => ∃ y < v.blocks i, b = ((g.dataRegionAddr + v.ptr g i y : Nat) : Int) := by
  induction n generalizing x remaining buffer with
  | zero => trivial
  | succ n ih =>
      have hx : x < v.blocks i := by
        unfold Volume.blocks blocksFor
        omega
      have hregion := hg.region x hx
      have haddr := (Bitmap.inodes).addr_add_len_le (g := g)
      rw [readFrom, if_neg (by omega)]
      refine ⟨⟨x, hx, ?_⟩, fun tempBuffer => ?_⟩
      · rw [← hg.dataBlock_ptr hx, g.signed_dataBlock (hg.ptr_lt hx)]
      · refine .ite trivial ?_
        split
        · trivial
        · rename_i hmore
          have hcast : ((ufsBlockSize : Nat) : Int) = 4096 := rfl
          rw [hcast] at hmore ⊢
          exact ih (by omega) (by omega)

/-- Zero pointers are skipped. -/
theorem readFrom_zero (h : ∀ y, x ≤ y → y < x + n → inode.ptr y = 0) :
    readFrom inode n x remaining buffer = .ret (some buffer) := by
  induction n generalizing x with
  | zero => rfl
  | succ n ih =>
      rw [readFrom, if_pos (h x le_rfl (by omega))]
      exact ih fun y h1 h2 => h y (by omega) (by omega)

/-- Any other pointer is read, with bytes left or not. -/
theorem readFrom_call (h : ∃ y, x ≤ y ∧ y < x + n ∧ inode.ptr y ≠ 0) :
    ∃ b k, readFrom inode n x remaining buffer = .call b k := by
  induction n generalizing x with
  | zero =>
      obtain ⟨y, h1, h2, -⟩ := h
      omega
  | succ n ih =>
      rw [readFrom]
      by_cases hx : inode.ptr x = 0
      · rw [if_pos hx]
        obtain ⟨y, h1, h2, hy⟩ := h
        have hne : x ≠ y := fun heq => hy (heq ▸ hx)
        exact ih ⟨y, by omega, by omega, hy⟩
      · rw [if_neg hx]
        exact ⟨_, _, rfl⟩

end Fetch

/-! ## The contract -/

/-- Reading `m` bytes of inode `i` gives what there is of them, and the blocks that are read for
it are its own. -/
structure ReadsOwn (d : Disk) (i m : Nat) : Prop where
  read : (LocalFileSystem.read i m).run d =
    .ok ((min (m : Int) (Image.inode d.image i).size, (Image.content d.image i).take m), d)
  blocks : ∃ buffer calls,
    ((Fetch.readFrom (Image.inode d.image i) directPtrs 0
      (min m (Image.inode d.image i).size) []).trace readBlock).run d =
        .ok ((some buffer, calls), d) ∧
    ∀ c ∈ calls, ∃ x k, Image.Owns d.image i x k ∧
      c.1 = (Image.super d.image).dataRegionAddr + k

namespace Serves

theorem readsOwn_of_pos (h : Serves g d) (hi : Image.Allocated d.image i) (hm : 1 ≤ m)
    (hpos : 0 < (Image.inode d.image i).size) : ReadsOwn d i m := by
  have hb := h.allocated.mp hi
  have hg := h.sound.good hb
  have hinode := h.inode_eq hb
  rw [hinode] at hpos
  constructor
  · obtain ⟨r, d', hrun, rfl, rfl⟩ := wp_read h.idle.toHolds h.sound hb hpos
      (show 0 < (m : Int) by omega) (Q := fun r d' => r = (min (m : Int) (Image.inode d.image i).size,
        (Image.content d.image i).take m) ∧ d' = d) (by
      rw [h.content_eq hb, hinode, Int.toNat_natCast, List.length_take, Volume.length_content]
      refine ⟨Prod.ext ?_ rfl, rfl⟩
      dsimp only
      omega)
    exact hrun
  · rw [hinode]
    have hmin : min (m : Int) ((g.volume d.image).inode i).size =
        (min m ((g.volume d.image).inode i).size.toNat : Nat) := by omega
    have hwp : wp (LocalFileSystem.readFrom ((g.volume d.image).inode i) directPtrs 0
        (min (m : Int) ((g.volume d.image).inode i).size) []) (fun _ d' => d' = d) d := by
      rw [hmin]
      exact wp_readFrom h.idle.toHolds hg rfl (by omega) (by omega) rfl
    rw [← Fetch.run_readFrom, wp_bind, Script.wp_run] at hwp
    obtain ⟨⟨o, calls⟩, d', hrun, hret⟩ := hwp
    have hall : (Fetch.readFrom ((g.volume d.image).inode i) directPtrs 0
        (min (m : Int) ((g.volume d.image).inode i).size) []).All fun b =>
          ∃ y < (g.volume d.image).blocks i,
            b = ((g.dataRegionAddr + (g.volume d.image).ptr g i y : Nat) : Int) :=
      Fetch.all_readFrom hg (by omega) (by omega)
    have hown := hall.wlp_trace _ _ hrun
    cases o with
    | none => simp [Fetch.returned] at hret
    | some buffer =>
        obtain rfl : d' = d := by simpa [Fetch.returned] using hret
        refine ⟨buffer, calls, hrun, fun c hc => ?_⟩
        obtain ⟨y, hy, hcy⟩ := hown c hc
        refine ⟨y, _, h.owns_iff.mpr ⟨hb, hy, rfl⟩, ?_⟩
        rw [hcy, h.super_eq]
        simp [Counts.super]

theorem readsOwn_of_zero (h : Serves g d) (hi : Image.Allocated d.image i) (hm : 1 ≤ m)
    (hsize : (Image.inode d.image i).size = 0)
    (hptr : ∀ x < 30, (Image.inode d.image i).ptr x = 0) : ReadsOwn d i m := by
  have hb := h.allocated.mp hi
  have hinode := h.inode_eq hb
  have hmin : min (m : Int) 0 = 0 := by omega
  have hskip : Fetch.readFrom (Image.inode d.image i) directPtrs 0 0 [] = .ret (some []) :=
    Fetch.readFrom_zero fun y _ hy => hptr y (by simpa [directPtrs] using hy)
  constructor
  · obtain ⟨r, d', hrun, rfl, rfl⟩ : wp (LocalFileSystem.read i m)
        (fun r d' => r = (0, []) ∧ d' = d) d := by
      rw [LocalFileSystem.read, if_neg (by omega), wp_bind, wp_stat h.idle.toHolds,
        h.sound.stat_of_bit hb]
      dsimp only
      rw [← hinode, hsize, hmin, wp_bind, ← Fetch.run_readFrom, hskip, Script.run_ret, pure_bind,
        Fetch.returned, wp_pure, wp_pure]
      exact ⟨rfl, rfl⟩
    rw [hrun, hsize, hmin, Image.content, hsize, Int.toNat_zero, List.range_zero, List.map_nil,
      List.take_nil]
  · rw [hsize, hmin, hskip]
    exact ⟨[], [], rfl, fun c hc => absurd hc List.not_mem_nil⟩

/-- An empty file owns nothing, so nothing may be read for it. -/
theorem not_readsOwn (hsize : (Image.inode d.image i).size = 0)
    (hptr : ∃ x < 30, (Image.inode d.image i).ptr x ≠ 0) : ¬ ReadsOwn d i m := by
  intro hr
  obtain ⟨buffer, calls, hrun, hown⟩ := hr.blocks
  obtain ⟨x, hx, hne⟩ := hptr
  obtain ⟨b, k, hcall⟩ : ∃ b k, Fetch.readFrom (Image.inode d.image i) directPtrs 0
      (min (m : Int) (Image.inode d.image i).size) [] = .call b k :=
    Fetch.readFrom_call ⟨x, Nat.zero_le _, by simpa [directPtrs] using hx, hne⟩
  rw [hcall] at hrun
  have hread : wlp ((Script.call b k).trace readBlock) (fun a _ => ∃ c, c ∈ a.2) d := by
    rw [Script.wlp_trace_call]
    exact fun _ _ _ _ _ _ => ⟨_, List.mem_cons_self⟩
  obtain ⟨c, hc⟩ := hread _ _ hrun
  obtain ⟨y, -, ⟨-, hy, -⟩, -⟩ := hown c hc
  rw [hsize] at hy
  exact absurd hy (Nat.not_lt_zero y)

end Serves

/-- `read` keeps to the contract unless the file is empty and its inode has a pointer, in every
state of a run that starts from a proper layout. -/
theorem Reachable.readsOwn_iff (h : Reachable numInodes numData d)
    (hno : Mkfs.NoOverflow numInodes numData) (hi : Image.Allocated d.image i) (hm : 1 ≤ m) :
    ReadsOwn d i m ↔ (Image.inode d.image i).size ≠ 0 ∨
      ∀ x < 30, (Image.inode d.image i).ptr x = 0 := by
  obtain ⟨g, -, -, hs, -⟩ := h.serves hno
  have hsize := (hs.exactOwnership_image.size i hi).1
  constructor
  · intro hr
    by_contra hcond
    rw [not_or, not_not, not_forall] at hcond
    obtain ⟨h0, x, hx⟩ := hcond
    rw [Classical.not_imp] at hx
    exact Serves.not_readsOwn h0 ⟨x, hx⟩ hr
  · rintro (hne | hptr)
    · exact hs.readsOwn_of_pos hi hm (by omega)
    · rcases Int.lt_or_eq_of_le hsize with hpos | h0
      · exact hs.readsOwn_of_pos hi hm hpos
      · exact hs.readsOwn_of_zero hi hm h0.symm hptr

theorem exists_readsOwn_iff : ∃ d, Reachable 32 32 d ∧ Image.IsFile d.image 1 ∧
    (ReadsOwn d 1 5 ↔ (Image.inode d.image 1).size ≠ 0 ∨
      ∀ x < 30, (Image.inode d.image 1).ptr x = 0) := by
  obtain ⟨d, hd, -, hfile, -⟩ := exists_reachable_file
  exact ⟨d, hd, hfile, hd.readsOwn_iff (by decide) hfile.1 (by decide)⟩

namespace Mkfs

/-- An image for which the inode table had ones in memory, and not zeros. -/
def uninitialized : ImageFile :=
  ⟨36 * 4096, blocks (layout 32 32) 2 3 4 (Buffer.ofFn fun _ => 255) Buffer.zero⟩

theorem mkfs_uninitialized :
    mkfs 32 32 (Buffer.ofFn fun _ => 255) Buffer.zero = some uninitialized :=
  mkfs_eq 2 3 4 36 (by decide) (by decide) rfl (by decide) (by decide) (by decide) (by decide)
    (by decide) (by decide) (by decide) (by decide)

end Mkfs

/-- The first file of such an image cannot be read before it is written: its first pointer is
`-1`, where the disk exits. -/
theorem exists_not_readsOwn : ∃ d, Reachable 32 32 d ∧ Image.IsFile d.image 1 ∧
    (LocalFileSystem.read 1 1).run d = .error (.invalidBlock (-1)) ∧ ¬ ReadsOwn d 1 1 := by
  obtain ⟨d, hd, hP⟩ := exists_reachable Mkfs.mkfs_uninitialized (by decide)
    [.create 0 ufsRegularFile [97]] (by decide)
    (P := fun d => decide (Image.IsFile d.image 1) &&
      decide (crash (LocalFileSystem.read 1 1) d = some (.invalidBlock (-1)))) (by decide +kernel)
  simp only [Bool.and_eq_true, decide_eq_true_eq] at hP
  obtain ⟨hfile, hP⟩ := hP
  have hrun := run_of_crash hP
  refine ⟨d, hd, hfile, hrun, fun hr => ?_⟩
  have hread := hr.read
  rw [show ((1 : Nat) : Int) = 1 from rfl, hrun] at hread
  cases hread

end Gunrock
