import Gunrock.Paths

/-!
# `GET`

What `get` answers on a sound disk (`wp_get`): the contents of a file, the entries of a
directory, or `404`.  A file of size 0 is the exception: `read` refuses its size, and the
negative result becomes the length of a string.
-/

namespace Gunrock

open Disk LocalFileSystem DistributedFileSystemService Wp

variable {g : Geometry} {d d' : Disk} {v : Volume} {i k : Nat} {numInodes numData : Int}
  {s body : Bytes}

/-! ## Directories as bytes -/

/-- An entry read through the bytes of the directory. -/
theorem bufferEntry_content (hk : k < v.count i) :
    bufferEntry (v.content g i) k = v.entry g i k := by
  have hlt : 32 * k + 32 ≤ (v.inode i).size.toNat := by
    unfold Volume.count at hk
    omega
  rw [bufferEntry, Volume.entry, Block.entry]
  congr 1
  apply Buffer.ext_get
  intro x hx
  rw [Buffer.get_ofFn_of_lt hx, Buffer.get_slice _ _ hx,
    List.getD_eq_getElem _ _ (by rw [Volume.length_content]; omega)]
  simp only [Volume.content, List.getElem_map, List.getElem_range, Volume.byte]
  rw [show (32 * k + x) / 4096 = k / 128 by omega,
    show (32 * k + x) % 4096 = 32 * (k % 128) + x by omega]

/-- A live entry other than `.` and `..`. -/
def Listed (e : DirEnt) : Prop := e.inum ≠ -1 ∧ e.cname ≠ dot ∧ e.cname ≠ dotdot

instance (e : DirEnt) : Decidable (Listed e) := inferInstanceAs (Decidable (_ ∧ _ ∧ _))

namespace Image

variable (im : Nat → Block)

/-- The live entries of directory `i` other than `.` and `..`. -/
def listed (i : Nat) : List DirEnt := ((List.range (count im i)).map (slot im i)).filter Listed

/-- The name, and a `/` for a directory. -/
def line (e : DirEnt) : Bytes :=
  if (inode im e.inum.toNat).type = ufsDirectory then e.cname ++ [47] else e.cname

end Image

/-- The lines of a text, the last of which may lack its newline. -/
def lines (text : Bytes) : List Bytes :=
  if (text.splitOn 10).getLast? = some [] then (text.splitOn 10).dropLast else text.splitOn 10

/-- The line for an entry, without the newline. -/
def Volume.line (v : Volume) (e : DirEnt) : Bytes :=
  if (v.inode e.inum.toNat).type = ufsDirectory then e.cname ++ [47] else e.cname

/-- The entries listed of the `n` slots from `k` on. -/
def Volume.listed (g : Geometry) (v : Volume) (i k n : Nat) : List DirEnt :=
  ((List.range' k n).map (v.entry g i)).filter Listed

theorem Sound.bit_of_listed (hs : Sound g v) (hb : v.inodeBit i = true)
    (hdir : (v.inode i).type = ufsDirectory) (hk : k < v.count i)
    (hl : Listed (v.entry g i k)) :
    0 ≤ (v.entry g i k).inum ∧ v.inodeBit (v.entry g i k).inum.toNat = true := by
  have hslots := (hs.good hb).slots hdir
  have h2 : 2 ≤ k := by
    by_contra hlt
    rcases (show k = 0 ∨ k = 1 by omega) with rfl | rfl
    · exact hl.2.1 hslots.self.1
    · exact hl.2.2 hslots.parent.1
  have hentry : (v.node g).Entry i (v.entry g i k).cname (v.entry g i k).inum.toNat := by
    rw [Namespace.entry_iff (Volume.node_of_dir hb hdir), Volume.mem_drop_entries]
    exact ⟨k, h2, hk, rfl, rfl⟩
  obtain ⟨n, hn⟩ := hs.tree.target hentry
  exact ⟨(hslots.live k h2 hk).inum_nonneg, Volume.bit_of_node hn⟩

/-- The loop of `get` over the entries. -/
theorem wp_listFrom (h : Holds g d v) (hs : Sound g v) (hb : v.inodeBit i = true)
    (hdir : (v.inode i).type = ufsDirectory) {n : Nat} (hn : k + n ≤ v.count i)
    {Q : Bytes → Disk → Prop}
    (hQ : Q ((v.listed g i k n).flatMap fun e => v.line e ++ [10]) d) :
    wp (listFrom (v.content g i) n k) Q d := by
  induction n generalizing k Q with
  | zero =>
      rw [listFrom, wp_pure]
      exact hQ
  | succ n ih =>
      rw [Volume.listed, List.range'_succ, List.map_cons] at hQ
      simp only [listFrom]
      rw [bufferEntry_content (by omega)]
      have hcond : Listed (v.entry g i k) ↔ (v.entry g i k).inum ≠ -1 ∧
          (v.entry g i k).cname ≠ dot ∧ (v.entry g i k).cname ≠ dotdot := Iff.rfl
      by_cases hl : Listed (v.entry g i k)
      · obtain ⟨hnonneg, hbit⟩ := hs.bit_of_listed hb hdir (by omega) hl
        obtain ⟨j, hj⟩ := Int.eq_ofNat_of_zero_le hnonneg
        rw [List.filter_cons_of_pos (by simpa using hl), List.flatMap_cons] at hQ
        rw [hj, Int.toNat_natCast] at hbit
        rw [if_pos (hcond.mp hl), wp_bind, wp_stat h, hj, hs.stat_of_bit hbit]
        dsimp only
        rw [wp_bind]
        refine ih (by omega) ?_
        rw [wp_pure]
        have hline : (if (v.inode j).type = ufsDirectory then (v.entry g i k).cname ++ [47, 10]
            else (v.entry g i k).cname ++ [10]) = v.line (v.entry g i k) ++ [10] := by
          rw [Volume.line, hj, Int.toNat_natCast]
          split
          · rw [List.append_assoc]
            rfl
          · rfl
        rw [hline]
        exact hQ
      · rw [List.filter_cons_of_neg (by simpa using hl)] at hQ
        rw [if_neg fun hc => hl (hcond.mpr hc)]
        exact ih (by omega) hQ

/-! ## All calls of `get` -/

/-- Every call of `get` returns, and leaves the disk as it is. -/
theorem wp_get (h : Holds g d v) (hs : Sound g v) (s body : Bytes) {Q : Handled → Disk → Prop}
    (hnone : follow (v.node g) 0 (trimmed s) < 0 → Q (.error (.clientError .notFound)) d)
    (hfile : ∀ i : Nat, follow (v.node g) 0 (trimmed s) = i → v.inodeBit i = true →
      (v.inode i).type ≠ ufsDirectory →
      Q (if (v.inode i).size = 0 then .error .lengthError else .ok { body := v.content g i }) d)
    (hdir : ∀ i : Nat, follow (v.node g) 0 (trimmed s) = i → v.inodeBit i = true →
      (v.inode i).type = ufsDirectory →
      Q (.ok { body := (v.listed g i 0 (v.count i)).flatMap fun e => v.line e ++ [10] }) d) :
    wp (DistributedFileSystemService.get ⟨.get, pathPrefix ++ s, body⟩) Q d := by
  simp only [DistributedFileSystemService.get, drop_pathPrefix]
  rw [wp_bind]
  refine wp_getWalk h hs le_rfl ?_
  rcases Int.lt_or_le (follow (v.node g) 0 (trimmed s)) 0 with hneg | hpos
  · rw [if_pos hneg, wp_pure]
    exact hnone hneg
  obtain ⟨i, hi⟩ := Int.eq_ofNat_of_zero_le hpos
  rw [hi, if_neg (by omega), wp_bind, wp_stat h]
  have hb : v.inodeBit i = true := hs.bit_of_follow hi
  have hg := hs.good hb
  rw [hs.stat_of_bit hb]
  dsimp only
  by_cases ht : (v.inode i).type = ufsDirectory
  · have hslots := hg.slots ht
    have hsize := hslots.size_eq
    have hge := hslots.count_ge
    have hmax := hg.size_le
    have htake : (v.content g i).take ((maxFileSize : Nat) : Int).toNat = v.content g i := by
      rw [Int.toNat_natCast]
      exact List.take_of_length_le (by rw [Volume.length_content]; omega)
    rw [if_pos ht, wp_bind]
    refine wp_read h hs hb (by omega) (by decide) ?_
    rw [htake, Volume.length_content]
    have hcount : (((v.inode i).size.toNat + 31 : Int) / 32).toNat = v.count i := by omega
    dsimp only
    rw [hcount, wp_bind]
    refine wp_listFrom h hs hb ht (by omega) ?_
    rw [wp_pure]
    exact hdir i hi hb ht
  · have hq := hfile i hi hb ht
    rw [if_neg ht, wp_bind]
    have hnonneg := hg.size_nonneg
    by_cases h0 : (v.inode i).size = 0
    · rw [if_pos h0] at hq
      rw [LocalFileSystem.read, if_pos (by omega), wp_pure]
      dsimp only
      rw [if_pos (by decide), wp_pure]
      exact hq
    · rw [if_neg h0] at hq
      have htake : (v.content g i).take (v.inode i).size.toNat = v.content g i :=
        List.take_of_length_le (by rw [Volume.length_content])
      refine wp_read h hs hb (by omega) (by omega) ?_
      rw [htake]
      dsimp only
      rw [if_neg (by omega), wp_pure]
      exact hq

/-! ## Files -/

/-- `GET` of the path `s` answers with the contents of file `i`. -/
def GetsFile (d : Disk) (s body : Bytes) (i : Nat) : Prop :=
  ∃ d', (DistributedFileSystemService.get ⟨.get, pathPrefix ++ s, body⟩).run d =
    .ok (.ok { status := 200, body := Image.content d.image i }, d')

/-- `GET` answers with the contents of a file just when the file is not empty, in every
state of a run that starts from a proper layout. -/
theorem Reachable.get_file_iff (h : Reachable numInodes numData d)
    (hno : Mkfs.NoOverflow numInodes numData) (hr : Resolves d 0 (trimmed s) i)
    (hi : Image.IsFile d.image i) :
    GetsFile d s body i ↔ (Image.inode d.image i).size ≠ 0 := by
  obtain ⟨g, -, -, hs, -⟩ := h.serves hno
  have hfollow : follow ((g.volume d.image).node g) 0 (trimmed s) = i :=
    ((hs.resolves_iff le_rfl).mp hr).1
  obtain ⟨hb, ht⟩ := hs.isFile.mp hi
  have hne : ((g.volume d.image).inode i).type ≠ ufsDirectory := by
    rw [ht]
    decide
  obtain ⟨handled, d', hrun, hq⟩ := wp_get hs.idle.toHolds hs.sound s body
    (Q := fun handled _ => handled = if ((g.volume d.image).inode i).size = 0 then
      .error .lengthError else .ok { body := (g.volume d.image).content g i })
    (fun hneg => by omega)
    (fun j hj _ _ => by
      obtain rfl : i = j := by omega
      rfl)
    fun j hj _ hdir => by
      obtain rfl : i = j := by omega
      exact absurd hdir hne
  rw [GetsFile, hs.inode_eq hb, hs.content_eq hb, hrun, hq]
  by_cases h0 : ((g.volume d.image).inode i).size = 0
  · simp [h0]
  · simp [h0]

theorem exists_get_file_iff : ∃ d, Reachable 32 32 d ∧
    (GetsFile d [97] [] 1 ↔ (Image.inode d.image 1).size ≠ 0) := by
  obtain ⟨d, hd, hlookup, hfile, -⟩ := exists_reachable_file
  obtain ⟨d', hlookup⟩ := run_of_result hlookup
  have hr : Resolves d 0 (trimmed [97]) (1 : Nat) := .cons hlookup (by decide) (.nil 1)
  exact ⟨d, hd, hd.get_file_iff (by decide) hr hfile⟩

/-- A file that `create` made and nobody wrote: `GET` fails with a `std::length_error`. -/
theorem exists_not_getsFile : ∃ d, Reachable 32 32 d ∧ Resolves d 0 (trimmed [97]) 1 ∧
    Image.IsFile d.image 1 ∧ ¬ GetsFile d [97] [] 1 := by
  obtain ⟨d, hd, hP⟩ := exists_reachable Mkfs.mkfs_ordinary (by decide)
    [.create 0 ufsRegularFile [97]] (by decide)
    (P := fun d => decide (Image.IsFile d.image 1) && decide (result (lookup 0 [97]) d = some 1) &&
      decide (result (DistributedFileSystemService.get ⟨.get, pathPrefix ++ [97], []⟩) d =
        some (.error .lengthError))) (by decide +kernel)
  simp only [Bool.and_eq_true, decide_eq_true_eq] at hP
  obtain ⟨⟨hfile, hlookup⟩, hget⟩ := hP
  obtain ⟨d', hlookup⟩ := run_of_result hlookup
  obtain ⟨d'', hget⟩ := run_of_result hget
  refine ⟨d, hd, .cons hlookup (by decide) (.nil 1), hfile, ?_⟩
  rintro ⟨_, hrun⟩
  rw [hget] at hrun
  cases hrun

/-! ## Directories -/

theorem lines_flatMap {ls : List Bytes} (hls : ∀ l ∈ ls, (10 : UInt8) ∉ l) :
    lines (ls.flatMap (· ++ [10])) = ls := by
  have hsplit : (ls.flatMap (· ++ [10])).splitOn 10 = ls ++ [[]] := by
    induction ls with
    | nil => rfl
    | cons l ls ih =>
        rw [List.flatMap_cons, List.append_assoc, List.singleton_append,
          List.splitOn_append_cons_self_of_not_mem (hls l List.mem_cons_self),
          ih fun l' hl' => hls l' (List.mem_cons_of_mem _ hl'), List.cons_append]
  rw [lines, hsplit, if_pos List.getLast?_concat, List.dropLast_concat]

theorem Serves.listed_eq (h : Serves g d) (hb : (g.volume d.image).inodeBit i = true) :
    Image.listed d.image i =
      (g.volume d.image).listed g i 0 ((g.volume d.image).count i) := by
  have hle := (g.volume d.image).count_le_blocks i
  rw [Image.listed, Volume.listed, h.count_eq hb, List.range_eq_range']
  congr 1
  refine List.map_congr_left fun k hk => ?_
  have hk := List.mem_range'_1.mp hk
  exact h.slot_eq hb (by omega)

/-- The entry of a listed inode says what the inode is. -/
theorem Serves.line_eq (h : Serves g d) (hb : (g.volume d.image).inodeBit i = true)
    (hdir : ((g.volume d.image).inode i).type = ufsDirectory) {e : DirEnt}
    (he : e ∈ Image.listed d.image i) : Image.line d.image e = (g.volume d.image).line e := by
  rw [h.listed_eq hb, Volume.listed, List.mem_filter, List.mem_map] at he
  obtain ⟨⟨k, hk, rfl⟩, hl⟩ := he
  have hk := List.mem_range'_1.mp hk
  obtain ⟨-, hbit⟩ := h.sound.bit_of_listed hb hdir (by omega) (of_decide_eq_true hl)
  rw [Image.line, Volume.line, h.inode_eq hbit]

/-- `GET` of the path `s` answers with a line for each entry of directory `i`. -/
def GetsDirectory (d : Disk) (s body : Bytes) (i : Nat) : Prop :=
  ∃ text d', (DistributedFileSystemService.get ⟨.get, pathPrefix ++ s, body⟩).run d =
    .ok (.ok { status := 200, body := text }, d') ∧
    (lines text).Perm ((Image.listed d.image i).map (Image.line d.image))

/-- `GET` of a directory lists its entries, in every state of a run that starts from a
proper layout. -/
theorem Reachable.get_directory (h : Reachable numInodes numData d)
    (hno : Mkfs.NoOverflow numInodes numData) (hr : Resolves d 0 (trimmed s) i)
    (hi : Image.IsDirectory d.image i) (hnl : ∀ e ∈ Image.listed d.image i, (10 : UInt8) ∉ e.cname) :
    GetsDirectory d s body i := by
  obtain ⟨g, -, -, hs, -⟩ := h.serves hno
  have hfollow : follow ((g.volume d.image).node g) 0 (trimmed s) = i :=
    ((hs.resolves_iff le_rfl).mp hr).1
  obtain ⟨hb, ht⟩ := hs.isDirectory.mp hi
  obtain ⟨handled, d', hrun, rfl⟩ := wp_get hs.idle.toHolds hs.sound s body
    (Q := fun handled _ => handled = .ok (HTTPResponse.mk 200
      ((Image.listed d.image i).flatMap fun e => (g.volume d.image).line e ++ [10])))
    (fun hneg => by omega)
    (fun j hj _ hfile => by
      obtain rfl : i = j := by omega
      exact absurd ht hfile)
    fun j hj _ _ => by
      obtain rfl : i = j := by omega
      rw [hs.listed_eq hb]
  refine ⟨_, d', hrun, ?_⟩
  have hmap : (Image.listed d.image i).map (g.volume d.image).line =
      (Image.listed d.image i).map (Image.line d.image) :=
    List.map_congr_left fun e he => (hs.line_eq hb ht he).symm
  have hfree : ∀ l ∈ (Image.listed d.image i).map (Image.line d.image), (10 : UInt8) ∉ l := by
    intro l hl
    obtain ⟨e, he, rfl⟩ := List.mem_map.mp hl
    rw [Image.line]
    split
    · simpa using hnl e he
    · exact hnl e he
  rw [← lines_flatMap hfree, ← hmap, List.flatMap_map]

theorem exists_getsDirectory : ∃ d, Reachable 32 32 d ∧ Image.IsFile d.image 1 ∧
    GetsDirectory d [] [] 0 := by
  obtain ⟨d, hd, hP⟩ := exists_reachable Mkfs.mkfs_ordinary (by decide)
    [.create 0 ufsRegularFile [97]] (by decide)
    (P := fun d => decide (Image.IsDirectory d.image 0) && decide (Image.IsFile d.image 1) &&
      (Image.listed d.image 0).all fun e => decide ((10 : UInt8) ∉ e.cname)) (by decide +kernel)
  simp only [Bool.and_eq_true, List.all_eq_true, decide_eq_true_eq] at hP
  exact ⟨d, hd, hP.1.2, hd.get_directory (by decide) (.nil 0) hP.1.1 hP.2⟩

/-- Where the data region overlaps the inode table, a write to a file can make an entry of
the root: that of an inode which is not allocated is missing from the listing. -/
theorem exists_not_getsDirectory : ∃ d, Reachable 33554400 32 d ∧ Resolves d 0 (trimmed []) 0 ∧
    Image.IsDirectory d.image 0 ∧ (∀ e ∈ Image.listed d.image 0, (10 : UInt8) ∉ e.cname) ∧
    ¬ GetsDirectory d [] [] 0 := by
  obtain ⟨d, hd, hP⟩ := exists_reachable Mkfs.mkfs_overlapping (by decide)
    [.create 0 ufsRegularFile [97], .write 1 (some (forged 5 (-1)).get) 4096] (by decide)
    (P := fun d => decide (Image.IsDirectory d.image 0) &&
      decide (result (DistributedFileSystemService.get ⟨.get, pathPrefix, []⟩) d =
        some (.ok { status := 200, body := [] })) &&
      decide ((Image.listed d.image 0).map DirEnt.cname = [[102]])) (by decide +kernel)
  simp only [Bool.and_eq_true, decide_eq_true_eq] at hP
  obtain ⟨⟨hdir, hget⟩, hlisted⟩ := hP
  obtain ⟨d', hget⟩ := run_of_result hget
  refine ⟨d, hd, .nil 0, hdir, fun e he => ?_, ?_⟩
  · have hname : e.cname ∈ (Image.listed d.image 0).map DirEnt.cname := List.mem_map_of_mem he
    rw [hlisted, List.mem_singleton] at hname
    rw [hname]
    decide
  · rintro ⟨text, d'', hrun, hperm⟩
    rw [List.append_nil, hget] at hrun
    cases hrun
    have hlen := hperm.length_eq
    rw [List.length_map, ← List.length_map DirEnt.cname, hlisted] at hlen
    cases hlen

end Gunrock
