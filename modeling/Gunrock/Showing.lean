import Gunrock.Listing
import Gunrock.Utilities
import Mathlib.Data.List.Sort

/-!
# `ds3ls`

The utility that prints the entries of a directory, which is named by a path.  It goes along the
path by itself, one directory after the other: in each it reads and sorts all of the entries and
searches them for the next component.  Only directories are found by this search, so of the
path of a file it says that there is none (`Reachable.listsPath_iff`).
-/

namespace Gunrock

open Disk LocalFileSystem DistributedFileSystemService Text Utilities Wp

namespace Utilities

/-- What the entries of a directory are sorted by. -/
def DirEntLess (a b : DirEnt) : Prop := a.cname < b.cname

instance (a b : DirEnt) : Decidable (DirEntLess a b) :=
  inferInstanceAs (Decidable (a.cname < b.cname))

/-- `std::sort`.  The names in a directory are different, so there is one way to sort them. -/
def sort (entries : List DirEnt) : List DirEnt := entries.insertionSort fun a b => ¬ DirEntLess b a

def isValidName (inum : Int) (name : Bytes) : Prop := 0 ≤ inum ∧ name ≠ []

instance (inum : Int) (name : Bytes) : Decidable (isValidName inum name) :=
  inferInstanceAs (Decidable (_ ∧ _))

def splitFirstSegment (path : Bytes) : Bytes × Bytes :=
  if path.head? ≠ some 47 then
    ([], [])
  else
    match (path.drop 1).findIdx? (· = 47) with
    | none => (path.drop 1, [])
    | some k => ((path.drop 1).take k, path.drop (k + 1))

/-- The line for an entry. -/
def entryLine (inum : Int) (name : Bytes) : Bytes := decimalInt inum ++ [9] ++ name ++ [10]

/-- What `ds3ls` has printed, and its global variable. -/
structure Console where
  cout : Bytes := []
  flag : Int := 0

/-- The entry is the one that the path goes on with. -/
def Matches (name : Bytes) (entry : DirEnt) : Prop :=
  isValidName entry.inum entry.cname ∧ entry.cname ≠ dot ∧ entry.cname ≠ dotdot ∧
    entry.cname = Buffer.cStr name

instance (name : Bytes) : DecidablePred (Matches name) :=
  fun _ => inferInstanceAs (Decidable (_ ∧ _ ∧ _ ∧ _))

/-- The loop for the sub-directory, which is listed by `ls`, with the variable `find`. -/
def lsEntries (ls : Int → Console → FS Console) (name : Bytes) :
    List DirEnt → Console → Bool → FS (Console × Bool)
  | [], console, find => return (console, find)
  | entry :: entries, console, find => do
    if Matches name entry then
      match ← stat entry.inum with
      | .error _ => lsEntries ls name entries console find
      | .ok subInode =>
        if subInode.type = ufsDirectory then
          lsEntries ls name entries (← ls entry.inum console) true
        else
          lsEntries ls name entries console find
    else
      lsEntries ls name entries console find

/-- `lsDirectory`, whose first argument is more than the length of the path. -/
def lsDirectory : Nat → Int → Bytes → Console → FS Console
  | 0, _, _, console => return console
  | n + 1, inodeNumber, path, console => do
    match ← stat inodeNumber with
    | .error _ => return { console with flag := 1 }
    | .ok inode =>
      let result := splitFirstSegment path
      let numOfEntries := int32 (inode.size % 2 ^ 64 / 32)
      if numOfEntries ≤ 0 then
        return console
      else
        let (ret, buffer) ← LocalFileSystem.read inodeNumber (int32 (numOfEntries * 32))
        if ret < 0 then
          return console
        else
          let vecEntries := sort ((List.range numOfEntries.toNat).map (bufferEntry buffer))
          if result.1 = [] ∧ result.2 = [] then
            return { console with
              cout := console.cout ++ (vecEntries.filter fun entry =>
                isValidName entry.inum entry.cname).flatMap fun entry =>
                  entryLine entry.inum entry.cname }
          else if result.1 ≠ [] then
            let (console, find) ←
              lsEntries (fun inum => lsDirectory n inum result.2) result.1 vecEntries console false
            return if find then console else { console with flag := 1 }
          else
            return console

def ds3ls (argv : List Bytes) : FS Ended :=
  if argv.length ≠ 3 then
    return failed (arg argv 0 ++ bytes ": diskImageFile directory\nFor example:\n    $ " ++
      arg argv 0 ++ bytes " tests/disk_images/a.img /a/b")
  else do
    let directory := arg argv 2
    let console ← lsDirectory (directory.length + 1) 0 directory {}
    if console.flag = 1 then
      return { failed (bytes "Directory not found") with cout := console.cout }
    else
      return { status := some 0, cout := console.cout }

end Utilities

variable {g : Geometry} {d : Disk} {i n : Nat} {argv : List Bytes}

/-! ## Sorting -/

theorem perm_sort (l : List DirEnt) : (sort l).Perm l := List.perm_insertionSort _ l

theorem pairwise_sort {l : List DirEnt} (hl : (l.map DirEnt.cname).Nodup) :
    (sort l).Pairwise fun e e' => e.cname < e'.cname := by
  have htotal : Std.Total fun a b : DirEnt => ¬ DirEntLess b a :=
    ⟨fun a b => Std.Total.total (r := (· ≤ · : Bytes → Bytes → Prop)) a.cname b.cname⟩
  have htrans : IsTrans DirEnt fun a b => ¬ DirEntLess b a :=
    ⟨fun a b c hab hbc => List.le_trans hab hbc⟩
  have hle := List.pairwise_insertionSort (fun a b : DirEnt => ¬ DirEntLess b a) l
  have hne : (sort l).Pairwise fun e e' => e.cname ≠ e'.cname :=
    List.pairwise_map.mp (((perm_sort l).map DirEnt.cname).nodup_iff.mpr hl)
  refine (hle.and hne).imp fun h => ?_
  by_contra hlt
  exact h.2 (List.le_antisymm h.1 hlt)

/-! ## Splitting the path -/

theorem splitFirstSegment_cons (s : Bytes) : splitFirstSegment (47 :: s) =
    ((cut s).1, ((cut s).2.map (47 :: ·)).getD []) := by
  have hp : (fun c : UInt8 => !decide (c ≠ 47)) = fun c => decide (c = 47) := by
    funext c
    simp
  rw [splitFirstSegment, if_neg (by simp), List.drop_succ_cons, List.drop_zero, cut,
    List.takeWhile_eq_take_findIdx_not, List.dropWhile_eq_drop_findIdx_not, hp]
  cases hk : s.findIdx? (· = 47) with
  | none => simp [List.findIdx?_eq_none_iff_findIdx_eq.mp hk]
  | some k =>
      obtain ⟨hlt, hslash, -⟩ := List.findIdx?_eq_some_iff_getElem.mp hk
      have hdrop : s.drop k = 47 :: s.drop (k + 1) := by
        rw [List.drop_eq_getElem_cons hlt, of_decide_eq_true hslash]
      rw [(List.findIdx?_eq_some_iff_findIdx_eq.mp hk).2]
      dsimp only
      rw [List.drop_succ_cons, hdrop]
      rfl

/-- What is left of the path after the first component, which is shorter. -/
theorem splitFirstSegment_snd (s : Bytes) :
    ((splitFirstSegment (47 :: s)).2 = 47 :: (cut s).2.getD [] ∨
      (splitFirstSegment (47 :: s)).2 = [] ∧ (cut s).2.getD [] = []) ∧
    (splitFirstSegment (47 :: s)).2.length ≤ s.length := by
  rw [splitFirstSegment_cons]
  cases hc : (cut s).2 with
  | none => exact ⟨.inr ⟨rfl, rfl⟩, Nat.zero_le _⟩
  | some rest => exact ⟨.inl rfl, (components_of_cut_some hc).2⟩

/-! ## Directories -/

namespace Image

variable (im : Nat → Block)

/-- The live entries of directory `i`, `.` and `..` included. -/
def liveEntries (i : Nat) : List DirEnt :=
  ((List.range (count im i)).map (slot im i)).filter fun e => e.inum ≠ -1

/-- A line for each live entry of directory `i`, sorted by name. -/
def Lists (i : Nat) (text : Bytes) : Prop :=
  ∃ es : List DirEnt, es.Perm (liveEntries im i) ∧ es.Pairwise (fun e e' => e.cname < e'.cname) ∧
    text = es.flatMap fun e => entryLine e.inum e.cname

end Image

/-- The slots of a directory up to its size, as `ds3ls` needs them. -/
structure Image.Names (im : Nat → Block) (i : Nat) : Prop where
  inum_nonneg : ∀ k < count im i, 0 ≤ (slot im i k).inum
  name_ne : ∀ k < count im i, (slot im i k).cname ≠ []
  inj : ∀ k < count im i, ∀ k' < count im i, (slot im i k).cname = (slot im i k').cname → k = k'

theorem Serves.names (h : Serves g d) (hne : ∀ i x j, (nodes g d).Entry i x j → x ≠ [])
    (hi : Image.IsDirectory d.image i) : Image.Names d.image i := by
  have ht := h.treeShaped_image hne
  obtain ⟨hb, hdir⟩ := h.isDirectory.mp hi
  have hle := (g.volume d.image).count_le_blocks i
  have hcount := h.count_eq hb
  have hlive : ∀ k, 2 ≤ k → k < Image.count d.image i → Image.Live d.image i k :=
    fun k h2 hk => h.live.mpr ⟨hi, h2, hcount ▸ hk⟩
  have hself := (ht.self i hi).1
  have hparent := (ht.parent i hi).1
  have hsplit : ∀ k : Nat, k = 0 ∨ k = 1 ∨ 2 ≤ k := by omega
  refine ⟨fun k hk => ?_, fun k hk => ?_, fun k hk k' hk' heq => ?_⟩
  · rw [h.slot_eq hb (by omega)]
    exact (h.goodSlots hi).used (hcount ▸ hk)
  · rcases hsplit k with rfl | rfl | h2
    · rw [hself]
      decide
    · rw [hparent]
      decide
    · exact (ht.name i k (hlive k h2 hk)).1
  · -- `.` and `..` are not the names of other slots
    rcases hsplit k with rfl | rfl | h2
    · rcases hsplit k' with rfl | rfl | h2'
      · rfl
      · exact absurd (hself.symm.trans (heq.trans hparent)) (by decide)
      · exact absurd (heq.symm.trans hself) (ht.name i k' (hlive k' h2' hk')).2.2.1
    · rcases hsplit k' with rfl | rfl | h2'
      · exact absurd (hself.symm.trans (heq.symm.trans hparent)) (by decide)
      · rfl
      · exact absurd (heq.symm.trans hparent) (ht.name i k' (hlive k' h2' hk')).2.2.2
    · rcases hsplit k' with rfl | rfl | h2'
      · exact absurd (heq.trans hself) (ht.name i k (hlive k h2 hk)).2.2.1
      · exact absurd (heq.trans hparent) (ht.name i k (hlive k h2 hk)).2.2.2
      · exact ht.names i k k' (hlive k h2 hk) (hlive k' h2' hk') heq

namespace Image.Names

variable {im : Nat → Block} {i : Nat} {e : DirEnt}

theorem liveEntries_eq (h : Names im i) :
    liveEntries im i = (List.range (count im i)).map (slot im i) := by
  refine List.filter_eq_self.mpr fun e he => ?_
  obtain ⟨k, hk, rfl⟩ := List.mem_map.mp he
  have hnonneg := h.inum_nonneg k (List.mem_range.mp hk)
  exact decide_eq_true (by omega)

theorem mem_liveEntries (h : Names im i) :
    e ∈ liveEntries im i ↔ ∃ k < count im i, slot im i k = e := by
  rw [h.liveEntries_eq, List.mem_map]
  simp only [List.mem_range]

theorem valid (h : Names im i) (he : e ∈ liveEntries im i) : isValidName e.inum e.cname := by
  obtain ⟨k, hk, rfl⟩ := h.mem_liveEntries.mp he
  exact ⟨h.inum_nonneg k hk, h.name_ne k hk⟩

theorem nodup (h : Names im i) : ((liveEntries im i).map DirEnt.cname).Nodup := by
  rw [h.liveEntries_eq, List.map_map]
  refine List.Nodup.map_on (fun k hk k' hk' heq => ?_) List.nodup_range
  exact h.inj k (List.mem_range.mp hk) k' (List.mem_range.mp hk') heq

/-- What `ds3ls` prints of the entries. -/
theorem lists (h : Names im i) : Lists im i (((sort (liveEntries im i)).filter fun e =>
    isValidName e.inum e.cname).flatMap fun e => entryLine e.inum e.cname) := by
  refine ⟨sort (liveEntries im i), perm_sort _, pairwise_sort h.nodup, ?_⟩
  rw [List.filter_eq_self.mpr fun e he => ?_]
  exact decide_eq_true (h.valid ((perm_sort _).mem_iff.mp he))

/-- One entry has the name, and so it is found once. -/
theorem sort_eq (h : Names im i) (he : e ∈ liveEntries im i) :
    ∃ es es', sort (liveEntries im i) = es ++ e :: es' ∧
      ∀ e' ∈ es ++ es', e'.cname ≠ e.cname := by
  obtain ⟨es, es', heq⟩ := List.append_of_mem ((perm_sort _).mem_iff.mpr he)
  refine ⟨es, es', heq, fun e' he' hname => ?_⟩
  have hnodup := ((perm_sort _).map DirEnt.cname).nodup_iff.mpr h.nodup
  rw [heq, List.map_append, List.map_cons, List.nodup_middle, ← List.map_append,
    List.nodup_cons] at hnodup
  exact hnodup.1 (hname ▸ List.mem_map_of_mem he')

end Image.Names

theorem mem_components_of_mem_trimmed {s x : Bytes} (h : x ∈ trimmed s) : x ∈ components s := by
  rw [trimmed] at h
  split at h
  · exact List.dropLast_subset _ h
  · exact h

theorem Image.IsFile.not_isDirectory {im : Nat → Block} (h : IsFile im i) : ¬ IsDirectory im i := by
  intro hdir
  have htype := h.2
  rw [hdir.2] at htype
  exact absurd htype (by decide)

/-! ## The search -/

section

variable {ls : Int → Console → FS Console} {name : Bytes} {es es' : List DirEnt} {e : DirEnt}
  {console : Console} {find : Bool}

/-- Entries with other names are passed over. -/
theorem lsEntries_append (h : ∀ e ∈ es, ¬ Matches name e) :
    lsEntries ls name (es ++ es') console find = lsEntries ls name es' console find := by
  induction es with
  | nil => rfl
  | cons e es ih =>
      obtain ⟨he, hes⟩ := List.forall_mem_cons.mp h
      rw [List.cons_append, lsEntries, if_neg he, ih hes]

theorem lsEntries_of_not_matches (h : ∀ e ∈ es, ¬ Matches name e) :
    lsEntries ls name es console find = pure (console, find) := by
  have happ : lsEntries ls name (es ++ []) console find = lsEntries ls name [] console find :=
    lsEntries_append h
  rwa [List.append_nil] at happ

theorem wp_lsEntries_of_matches (h : Serves g d) (he : Matches name e)
    (hes : ∀ e' ∈ es ++ es', ¬ Matches name e') (hi : e.inum = i) (hb : Image.Allocated d.image i)
    {Q : Console × Bool → Disk → Prop}
    (hdir : Image.IsDirectory d.image i → wp (ls i console) (fun c => Q (c, true)) d)
    (hfile : Image.IsFile d.image i → Q (console, find) d) :
    wp (lsEntries ls name (es ++ e :: es') console find) Q d := by
  rw [lsEntries_append fun e' he' => hes e' (List.mem_append_left _ he'), lsEntries, if_pos he, hi,
    wp_bind, wp_stat h.idle.toHolds]
  have hbit := h.allocated.mp hb
  have htail : ∀ e' ∈ es', ¬ Matches name e' := fun e' he' => hes e' (List.mem_append_right _ he')
  rw [h.sound.stat_of_bit hbit]
  dsimp only
  rcases (h.sound.good hbit).type with htype | htype
  · rw [if_pos htype, wp_bind]
    refine wp_mono (hdir (h.isDirectory.mpr ⟨hbit, htype⟩)) fun c d' hq => ?_
    rwa [lsEntries_of_not_matches htail, wp_pure]
  · rw [if_neg (by rw [htype]; decide), lsEntries_of_not_matches htail, wp_pure]
    exact hfile (h.isFile.mpr ⟨hbit, htype⟩)

/-! ## The walk -/

/-- The entries that are read of a directory. -/
theorem Serves.bufferEntries (h : Serves g d) (hi : Image.IsDirectory d.image i)
    (hnames : Image.Names d.image i) :
    (List.range ((g.volume d.image).count i)).map (bufferEntry ((g.volume d.image).content g i)) =
      Image.liveEntries d.image i := by
  obtain ⟨hb, -⟩ := h.isDirectory.mp hi
  have hle := (g.volume d.image).count_le_blocks i
  rw [hnames.liveEntries_eq, h.count_eq hb]
  refine List.map_congr_left fun k hk => ?_
  have hk := List.mem_range.mp hk
  rw [bufferEntry_content hk, h.slot_eq hb (by omega)]

/-- `ds3ls` has reached directory `i`, and reads it. -/
theorem Serves.wp_lsDirectory_dir (h : Serves g d) (hi : Image.IsDirectory d.image i)
    (hnames : Image.Names d.image i) {path : Bytes} {Q : Console → Disk → Prop}
    (hend : splitFirstSegment path = ([], []) → ∀ text, Image.Lists d.image i text →
      Q { console with cout := console.cout ++ text } d)
    (hgo : (splitFirstSegment path).1 ≠ [] →
      wp (lsEntries (fun inum => lsDirectory n inum (splitFirstSegment path).2)
        (splitFirstSegment path).1 (sort (Image.liveEntries d.image i)) console false)
      (fun r d' => Q (if r.2 then r.1 else { r.1 with flag := 1 }) d') d)
    (hskip : (splitFirstSegment path).1 = [] → (splitFirstSegment path).2 ≠ [] → Q console d) :
    wp (lsDirectory (n + 1) i path console) Q d := by
  obtain ⟨hb, hdir⟩ := h.isDirectory.mp hi
  have hg := h.sound.good hb
  have hslots := hg.slots hdir
  have hsize := hslots.size_eq
  have hge := hslots.count_ge
  have hmax : ((g.volume d.image).inode i).size ≤ 122880 := hg.size_le
  rw [lsDirectory, wp_bind, wp_stat h.idle.toHolds, h.sound.stat_of_bit hb]
  dsimp only
  have hnum : int32 (((g.volume d.image).inode i).size % 2 ^ 64 / 32) =
      (g.volume d.image).count i := by
    rw [int32_of_fits ⟨by omega, by omega⟩]
    omega
  have hbytes : int32 ((g.volume d.image).count i * 32) = ((g.volume d.image).inode i).size := by
    rw [int32_of_fits ⟨by omega, by omega⟩]
    omega
  rw [hnum, if_neg (by omega), hbytes, wp_bind]
  refine wp_read h.idle.toHolds h.sound hb (by omega) (by omega) ?_
  rw [List.take_of_length_le (by rw [Volume.length_content])]
  dsimp only
  rw [if_neg (by omega), Int.toNat_natCast, h.bufferEntries hi hnames]
  by_cases hfirst : (splitFirstSegment path).1 = []
  · by_cases hsecond : (splitFirstSegment path).2 = []
    · rw [if_pos ⟨hfirst, hsecond⟩, wp_pure]
      exact hend (Prod.ext hfirst hsecond) _ hnames.lists
    · rw [if_neg fun hc => hsecond hc.2, if_neg (not_not.mpr hfirst), wp_pure]
      exact hskip hfirst hsecond
  · rw [if_neg fun hc => hfirst hc.1, if_pos hfirst, wp_bind]
    refine wp_mono (hgo hfirst) fun r d' hq => ?_
    rw [wp_pure]
    exact hq

/-- The search finds what `lookup` finds, if that is a directory. -/
theorem Serves.wp_lsEntries (h : Serves g d) (hi : Image.IsDirectory d.image i)
    (hnames : Image.Names d.image i) {x : Bytes} (hx : Plain x) {Q : Console × Bool → Disk → Prop}
    (hdir : ∀ j : Nat, findName (nodes g d) i x = j → Image.IsDirectory d.image j →
      wp (ls j console) (fun c => Q (c, true)) d)
    (hmiss : (∀ j : Nat, findName (nodes g d) i x = j → ¬ Image.IsDirectory d.image j) →
      Q (console, false) d) :
    wp (lsEntries ls x (sort (Image.liveEntries d.image i)) console false) Q d := by
  have hdots : ¬ (x = dot ∨ x = dotdot) := fun hc => hc.elim hx.ne_dot hx.ne_dotdot
  have hmatch : ∀ e, Matches x e → e.cname = x := fun e he =>
    he.2.2.2.trans (Buffer.cStr_of_notMem hx.nul)
  by_cases hex : ∃ e ∈ Image.liveEntries d.image i, e.cname = x
  · obtain ⟨e, he, hname⟩ := hex
    have hvalid := hnames.valid he
    obtain ⟨j, hj⟩ := Int.eq_ofNat_of_zero_le hvalid.1
    obtain ⟨k, hk, rfl⟩ := hnames.mem_liveEntries.mp he
    have hfind := (h.findName_slot hi hx.nul hdots j).mpr ⟨k, hk, hname, hj⟩
    obtain ⟨es, es', hsort, hothers⟩ := hnames.sort_eq he
    rw [hsort]
    refine wp_lsEntries_of_matches h ⟨hvalid, hname ▸ hx.ne_dot, hname ▸ hx.ne_dotdot, ?_⟩
      (fun e' he' hm => hothers e' he' ((hmatch e' hm).trans hname.symm)) hj
      (h.allocated.mpr (h.sound.bit_of_findName hfind)) (hdir j hfind) fun hfile => ?_
    · rw [hname, Buffer.cStr_of_notMem hx.nul]
    · refine hmiss fun j' hj' hdir' => ?_
      obtain rfl : j = j' := by omega
      exact hfile.not_isDirectory hdir'
  · rw [lsEntries_of_not_matches fun e he hm =>
      hex ⟨e, (perm_sort _).mem_iff.mp he, hmatch e hm⟩, wp_pure]
    refine hmiss fun j hj _ => ?_
    obtain ⟨k, hk, hname, -⟩ := (h.findName_slot hi hx.nul hdots j).mp hj
    exact hex ⟨_, hnames.mem_liveEntries.mpr ⟨k, hk, rfl⟩, hname⟩

theorem Serves.isFile_of_findName (h : Serves g d) {p : Int} {x : Bytes} {m : Nat}
    (hm : findName (nodes g d) p x = m) (hno : ¬ Image.IsDirectory d.image m) :
    Image.IsFile d.image m := by
  have hb := h.sound.bit_of_findName hm
  refine h.isFile.mpr ⟨hb, (h.sound.good hb).type.resolve_left fun hdir => ?_⟩
  exact hno (h.isDirectory.mpr ⟨hb, hdir⟩)

/-- From a file on there is no way to a directory. -/
theorem Serves.not_follow_file (h : Serves g d) {j m : Nat} (hm : Image.IsFile d.image m)
    {xs : List Bytes} (hj : follow (nodes g d) m xs = j) : ¬ Image.IsDirectory d.image j := by
  cases xs with
  | nil =>
      obtain rfl : m = j := by
        rw [follow] at hj
        omega
      exact hm.not_isDirectory
  | cons x xs =>
      rw [follow, h.findName_file hm, if_pos (by decide)] at hj
      simp only [eInvalidInode] at hj
      omega

theorem Serves.not_follow_of_not_found (h : Serves g d) {x : Bytes} {xs : List Bytes} {j : Nat}
    (hno : ∀ m : Nat, findName (nodes g d) i x = m → ¬ Image.IsDirectory d.image m)
    (hj : follow (nodes g d) i (x :: xs) = j) : ¬ Image.IsDirectory d.image j := by
  rw [follow] at hj
  split at hj
  · omega
  · rename_i hpos
    obtain ⟨m, hm⟩ := Int.eq_ofNat_of_zero_le (Int.not_lt.mp hpos)
    rw [hm] at hj
    exact h.not_follow_file (h.isFile_of_findName hm (hno m hm)) hj

/-- `ds3ls` goes along the components, which are the names of directories or there is nothing. -/
theorem Serves.wp_lsDirectory (h : Serves g d)
    (hne : ∀ i x j, (nodes g d).Entry i x j → x ≠ []) (hi : Image.IsDirectory d.image i)
    {s path : Bytes} (hs : ∀ x ∈ trimmed s, Plain x) (hpath : path = 47 :: s ∨ path = [] ∧ s = [])
    (hn : path.length < n) {Q : Console → Disk → Prop}
    (hdir : ∀ j : Nat, follow (nodes g d) i (trimmed s) = j → Image.IsDirectory d.image j →
      ∀ text, Image.Lists d.image j text → Q { console with cout := console.cout ++ text } d)
    (hmiss : (∀ j : Nat, follow (nodes g d) i (trimmed s) = j → ¬ Image.IsDirectory d.image j) →
      Q { console with flag := 1 } d) :
    wp (lsDirectory n i path console) Q d := by
  induction n generalizing i s path with
  | zero => omega
  | succ n ih =>
      have hnames := h.names hne hi
      by_cases hnil : s = []
      · subst hnil
        have hsplit : splitFirstSegment path = ([], []) := by
          rcases hpath with rfl | ⟨rfl, -⟩
          · rfl
          · rfl
        refine h.wp_lsDirectory_dir hi hnames (fun _ => hdir i rfl hi) (fun hfirst => ?_)
          fun _ hsecond => ?_
        · exact absurd (congrArg Prod.fst hsplit) hfirst
        · exact absurd (congrArg Prod.snd hsplit) hsecond
      obtain rfl : path = 47 :: s := hpath.resolve_right fun hc => hnil hc.2
      rw [trimmed_cut hnil] at hs hdir hmiss
      obtain ⟨hx, hs⟩ := List.forall_mem_cons.mp hs
      have hfirst : (splitFirstSegment (47 :: s)).1 ≠ [] := by
        rw [splitFirstSegment_cons]
        exact hx.ne
      refine h.wp_lsDirectory_dir hi hnames (fun hsplit => absurd (congrArg Prod.fst hsplit) hfirst)
        (fun _ => ?_) fun hno => absurd hno hfirst
      obtain ⟨hrest, hlength⟩ := splitFirstSegment_snd s
      have hname : (splitFirstSegment (47 :: s)).1 = (cut s).1 := by rw [splitFirstSegment_cons]
      rw [hname]
      refine h.wp_lsEntries hi hnames hx (fun j hj hjdir => ?_) fun hno => ?_
      · rw [follow_cons hj] at hdir hmiss
        rw [List.length_cons] at hn
        exact ih hjdir hs hrest (by omega) hdir hmiss
      · exact hmiss fun j hj => h.not_follow_of_not_found hno hj

/-! ## The program -/

/-- `ds3ls`, on a path `/s`. -/
theorem Serves.wp_ds3ls (h : Serves g d) (hne : ∀ i x j, (nodes g d).Entry i x j → x ≠ [])
    (hlen : argv.length = 3) {s : Bytes} (harg : arg argv 2 = 47 :: s)
    (hs : ∀ x ∈ trimmed s, x ≠ [] ∧ x ≠ dot ∧ x ≠ dotdot) {Q : Ended → Disk → Prop}
    (hdir : ∀ j : Nat, follow (nodes g d) 0 (trimmed s) = j → Image.IsDirectory d.image j →
      ∀ text, Image.Lists d.image j text → Q { status := some 0, cout := text } d)
    (hmiss : (∀ j : Nat, follow (nodes g d) 0 (trimmed s) = j → ¬ Image.IsDirectory d.image j) →
      Q (failed (bytes "Directory not found")) d) :
    wp (ds3ls argv) Q d := by
  have hnul : (0 : UInt8) ∉ s := by
    have hz : (0 : UInt8) ∉ arg argv 2 := Buffer.zero_notMem_cStr _
    rw [harg] at hz
    exact fun hmem => hz (List.mem_cons_of_mem 47 hmem)
  have hplain : ∀ x ∈ trimmed s, Plain x := by
    intro x hx
    obtain ⟨hxne, hdot, hdotdot⟩ := hs x hx
    exact ⟨hxne, fun hmem => hnul ((mem_components (mem_components_of_mem_trimmed hx)).2 0 hmem),
      hdot, hdotdot⟩
  rw [ds3ls, if_neg (not_not.mpr hlen), harg, wp_bind]
  refine h.wp_lsDirectory hne (h.isDirectory.mpr h.sound.root) hplain (.inl rfl)
    (Nat.lt_succ_self _) (fun j hj hjdir text htext => ?_) fun hno => ?_
  · rw [if_neg (show (0 : Int) ≠ 1 by decide), wp_pure]
    exact hdir j hj hjdir text htext
  · rw [if_pos rfl, wp_pure]
    exact hmiss hno

end

/-! ## What it should show -/

/-- The path `/s` leads somewhere; with a slash at its end, to a directory. -/
def LeadsTo (d : Disk) (s : Bytes) (i : Nat) : Prop :=
  Resolves d 0 (trimmed s) i ∧ (Image.IsDirectory d.image i ∨ s.getLast? ≠ some 47)

/-- What `ds3ls` has to show of the path `/s`. -/
structure ShowsPath (d : Disk) (s : Bytes) (ended : Ended) : Prop where
  directory : ∀ i, LeadsTo d s i → Image.IsDirectory d.image i →
    ended.status = some 0 ∧ ended.cerr = [] ∧ Image.Lists d.image i ended.cout
  file : ∀ i, LeadsTo d s i → Image.IsFile d.image i →
    ended = { status := some 0, cout := entryLine i ((trimmed s).getLast?.getD []) }
  missing : (∀ i, ¬ LeadsTo d s i) → ended = failed (bytes "Directory not found")

/-- Run with these arguments on the image of `d`, `ds3ls` shows the path `/s`. -/
def ListsPath (d : Disk) (argv : List Bytes) (s : Bytes) : Prop :=
  ∃ d₀, Disk.new d.imageFile.size d.imageFile.block = some d₀ ∧
    wp (ds3ls argv) (fun ended _ => ShowsPath d s ended) d₀

/-- `ds3ls` shows what the path names just when that is not a file, in every state of a run that
starts from a proper layout. -/
theorem Reachable.listsPath_iff {numInodes numData : Int} (h : Reachable numInodes numData d)
    (hno : Mkfs.NoOverflow numInodes numData) (hlen : argv.length = 3) {s : Bytes}
    (harg : arg argv 2 = 47 :: s) (hs : ∀ x ∈ trimmed s, x ≠ [] ∧ x ≠ dot ∧ x ≠ dotdot) :
    ListsPath d argv s ↔ ¬ ∃ i, LeadsTo d s i ∧ Image.IsFile d.image i := by
  obtain ⟨g, -, -, hserves, hne⟩ := h.serves hno
  have hresolves : ∀ i : Nat, Resolves d 0 (trimmed s) i ↔ follow (nodes g d) 0 (trimmed s) = i :=
    fun i => (hserves.resolves_iff le_rfl).trans (and_iff_left (Int.natCast_nonneg i))
  refine hserves.exists_new_iff.trans (wp_iff_of_wp ?_)
  refine hserves.bootDisk.wp_ds3ls hne hlen harg hs (fun j hj hjdir text htext => ?_)
    fun hmiss => ?_
  · have hsame : ∀ i, LeadsTo d s i → i = j := fun i hi => by
      have hi := (hresolves i).mp hi.1
      exact Int.ofNat_inj.mp (hi.symm.trans hj)
    refine iff_of_true ⟨fun i hi _ => ?_, fun i hi hfile => ?_, fun hnone => ?_⟩ ?_
    · rw [hsame i hi]
      exact ⟨rfl, rfl, htext⟩
    · rw [hsame i hi] at hfile
      exact absurd hjdir hfile.not_isDirectory
    · exact absurd ⟨(hresolves j).mpr hj, .inl hjdir⟩ (hnone j)
    · rintro ⟨i, hi, hfile⟩
      rw [hsame i hi] at hfile
      exact hfile.not_isDirectory hjdir
  · have hdir : ∀ i, LeadsTo d s i → ¬ Image.IsDirectory d.image i := fun i hi =>
      hmiss i ((hresolves i).mp hi.1)
    constructor
    · rintro hshows ⟨i, hi, hfile⟩
      cases hshows.file i hi hfile
    · exact fun hc => ⟨fun i hi hidir => absurd hidir (hdir i hi),
        fun i hi hfile => absurd ⟨i, hi, hfile⟩ hc, fun _ => rfl⟩

theorem Resolves.lookup {p q : Int} {x : Bytes} (h : Resolves d p [x] q) :
    ∃ d', (LocalFileSystem.lookup p x).run d = .ok (q, d') := by
  cases h with
  | cons hrun _ hrest =>
      cases hrest
      exact ⟨_, hrun⟩

/-- `ds3ls a.img /a` for the directory `a`. -/
theorem exists_listsPath_iff : ∃ d, Reachable 32 32 d ∧ LeadsTo d [97] 1 ∧
    Image.IsDirectory d.image 1 ∧ ListsPath d [[], [], [47, 97]] [97] := by
  obtain ⟨d, hd, hP⟩ := exists_reachable Mkfs.mkfs_ordinary (by decide)
    [.create 0 ufsDirectory [97]] (by decide)
    (P := fun d => decide (Image.IsDirectory d.image 1) &&
      decide (result (lookup 0 [97]) d = some 1)) (by decide +kernel)
  rw [Bool.and_eq_true, decide_eq_true_eq, decide_eq_true_eq] at hP
  obtain ⟨hdir, hlookup⟩ := hP
  obtain ⟨d', hlookup⟩ := run_of_result hlookup
  have hleads : LeadsTo d [97] 1 := ⟨.cons hlookup (by decide) (.nil 1), .inl hdir⟩
  refine ⟨d, hd, hleads, hdir, (hd.listsPath_iff (by decide) rfl rfl (by decide)).mpr ?_⟩
  rintro ⟨i, ⟨hpath, -⟩, hfile⟩
  have hpath : Resolves d 0 [[97]] i := hpath
  obtain ⟨d₁, hrun⟩ := hpath.lookup
  cases hlookup.symm.trans hrun
  exact hfile.not_isDirectory hdir

/-- `ds3ls a.img /a` for the file `a`: "Directory not found". -/
theorem exists_not_listsPath : ∃ d, Reachable 32 32 d ∧ LeadsTo d [97] 1 ∧
    Image.IsFile d.image 1 ∧ ¬ ListsPath d [[], [], [47, 97]] [97] := by
  obtain ⟨d, hd, hP⟩ := exists_reachable Mkfs.mkfs_ordinary (by decide)
    [.create 0 ufsRegularFile [97]] (by decide)
    (P := fun d => decide (Image.IsFile d.image 1) && decide (result (lookup 0 [97]) d = some 1) &&
      (Disk.new d.imageFile.size d.imageFile.block).any
        (returns (ds3ls [[], [], [47, 97]]) fun ended _ => ended.status = some 1))
    (by decide +kernel)
  simp only [Bool.and_eq_true, decide_eq_true_eq] at hP
  obtain ⟨⟨hfile, hlookup⟩, hls⟩ := hP
  obtain ⟨d', hlookup⟩ := run_of_result hlookup
  have hleads : LeadsTo d [97] 1 := ⟨.cons hlookup (by decide) (.nil 1), .inr (by decide)⟩
  refine ⟨d, hd, hleads, hfile, fun hlists => ?_⟩
  obtain ⟨ended, d₁, hstatus, hshows⟩ := exists_of_returns hls hlists
  rw [hshows.file 1 hleads hfile] at hstatus
  cases of_decide_eq_true hstatus

end Gunrock
