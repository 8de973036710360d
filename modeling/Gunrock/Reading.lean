import Gunrock.Sound

/-!
# Reading a sound volume

What `lookup`, `read` and the scans of a directory answer, in terms of nodes.  All of them
leave the disk as it is.

`lookup` looks at every slot of every block and takes the first that matches; on a sound
volume at most one does, so that it finds what the directory's entries say.
-/

namespace Gunrock

open Disk LocalFileSystem Wp

variable {g : Geometry} {im : Nat → Block} {d : Disk} {v : Volume} {i : Nat}

/-! ## Direct pointers and blocks -/

theorem directAt_eq {inode : Inode} {x : Nat} (hx : x < 30) :
    directAt inode x = pure (inode.ptr x) := by
  have hc : 0 ≤ (x : Int) ∧ (x : Int) < ((directPtrs : Nat) : Int) := by
    simp only [directPtrs]
    omega
  rw [directAt, if_pos hc, Int.toNat_natCast]

theorem wp_directAt {inode : Inode} {x : Nat} (hx : x < 30) {Q : Nat → Disk → Prop} :
    wp (directAt inode x) Q d ↔ Q (inode.ptr x) d := by
  rw [directAt_eq hx, wp_pure]

theorem wp_setDirect {inode : Inode} {x w : Nat} (hx : x < 30) {Q : Inode → Disk → Prop} :
    wp (setDirect inode x w) Q d ↔ Q (inode.setPtr x w) d := by
  have hc : 0 ≤ (x : Int) ∧ (x : Int) < ((directPtrs : Nat) : Int) := by
    simp only [directPtrs]
    omega
  rw [setDirect, if_pos hc, wp_pure, Int.toNat_natCast]

/-- Reading block `x` of an inode. -/
theorem wp_readPtr (h : Holds g d v) (hg : GoodInode g v i) {x : Nat} (hx : x < v.blocks i)
    {Q : Block → Disk → Prop} :
    wp (readBlock (Buffer.signed ((v.inode i).ptr x))) Q d ↔ Q (v.data (v.ptr g i x)) d := by
  rw [← hg.dataBlock_ptr hx]
  exact wp_readDataBlock h (hg.ptr_lt hx)

/-! ## Slots -/

/-- The slot is used and has this name. -/
def DirEnt.Matches (e : DirEnt) (name : Bytes) : Prop := e.inum ≠ -1 ∧ e.cname = name

theorem findEntry_eq_some {b : Block} {name : Bytes} {z : Int} :
    findEntry b name = some z ↔ ∃ j < 128, ((b.entry j).Matches (Buffer.cStr name) ∧
      (b.entry j).inum = z) ∧ ∀ j' < j, ¬ (b.entry j').Matches (Buffer.cStr name) := by
  rw [findEntry, FreeList.findSome?_range_eq_some]
  simp only [Option.ite_none_right_eq_some, Option.some.injEq, ite_eq_right_iff, reduceCtorEq,
    imp_false, DirEnt.Matches]

theorem findEntry_eq_none {b : Block} {name : Bytes} :
    findEntry b name = none ↔ ∀ j < 128, ¬ (b.entry j).Matches (Buffer.cStr name) := by
  rw [findEntry, List.findSome?_eq_none_iff]
  simp only [ite_eq_right_iff, reduceCtorEq, imp_false, DirEnt.Matches, List.mem_range]

theorem entry_block (v : Volume) (i x : Nat) {j : Nat} (hj : j < 128) :
    (v.data (v.ptr g i x)).entry j = v.entry g i (128 * x + j) := by
  rw [Volume.entry, show (128 * x + j) / 128 = x by omega, show (128 * x + j) % 128 = j by omega]

/-- The loop of `lookup`, when one slot from block `x` on matches. -/
theorem wp_lookupFrom_some (h : Holds g d v) (hg : GoodInode g v i) {name : Bytes} {k : Nat}
    (hk : k < 128 * v.blocks i) (hm : (v.entry g i k).Matches (Buffer.cStr name))
    (huniq : ∀ k' < k, ¬ (v.entry g i k').Matches (Buffer.cStr name))
    {Q : Int → Disk → Prop} (hQ : Q (v.entry g i k).inum d) {n x : Nat}
    (hn : x + n = v.blocks i) (hx : 128 * x ≤ k) :
    wp (lookupFrom (v.inode i) name n x) Q d := by
  have hle := hg.blocks_le
  induction n generalizing x with
  | zero => omega
  | succ n ih =>
      rw [lookupFrom, wp_bind, wp_directAt (by omega), wp_bind, wp_readPtr h hg (by omega)]
      rcases Nat.lt_or_ge k (128 * (x + 1)) with hlt | hge
      · -- the slot is in this block
        obtain ⟨j, rfl⟩ : ∃ j, k = 128 * x + j := ⟨k - 128 * x, by omega⟩
        have hfind : findEntry (v.data (v.ptr g i x)) name =
            some (v.entry g i (128 * x + j)).inum := by
          rw [findEntry_eq_some]
          refine ⟨j, by omega, ?_, fun j' hj' => ?_⟩
          · rw [entry_block v i x (by omega)]
            exact ⟨hm, rfl⟩
          · rw [entry_block v i x (by omega)]
            exact huniq _ (by omega)
        rw [hfind, wp_pure]
        exact hQ
      · have hfind : findEntry (v.data (v.ptr g i x)) name = none := by
          rw [findEntry_eq_none]
          intro j hj
          rw [entry_block v i x hj]
          exact huniq _ (by omega)
        rw [hfind]
        exact ih (by omega) (by omega)

/-- The loop of `lookup`, when no slot from block `x` on matches. -/
theorem wp_lookupFrom_none (h : Holds g d v) (hg : GoodInode g v i) {name : Bytes}
    (hno : ∀ k < 128 * v.blocks i, ¬ (v.entry g i k).Matches (Buffer.cStr name))
    {Q : Int → Disk → Prop} (hQ : Q (-eNotFound) d) {n x : Nat} (hn : x + n = v.blocks i) :
    wp (lookupFrom (v.inode i) name n x) Q d := by
  have hle := hg.blocks_le
  induction n generalizing x with
  | zero =>
      rw [lookupFrom, wp_pure]
      exact hQ
  | succ n ih =>
      rw [lookupFrom, wp_bind, wp_directAt (by omega), wp_bind, wp_readPtr h hg (by omega)]
      have hfind : findEntry (v.data (v.ptr g i x)) name = none := by
        rw [findEntry_eq_none]
        intro j hj
        rw [entry_block v i x hj]
        exact hno _ (by omega)
      rw [hfind]
      exact ih (by omega)

/-! ## Entries -/

theorem Volume.drop_entries (v : Volume) (i : Nat) :
    (v.entries g i).drop 2 = (List.range' 2 (v.count i - 2)).map fun k =>
      ((v.entry g i k).cname, (v.entry g i k).inum.toNat) := by
  rw [Volume.entries, ← List.map_drop, List.range_eq_range', List.drop_range']

theorem Volume.mem_drop_entries {x : Bytes} {j : Nat} :
    (x, j) ∈ (v.entries g i).drop 2 ↔ ∃ k, 2 ≤ k ∧ k < v.count i ∧
      (v.entry g i k).cname = x ∧ (v.entry g i k).inum.toNat = j := by
  rw [Volume.drop_entries, List.mem_map]
  constructor
  · rintro ⟨k, hk, heq⟩
    rw [List.mem_range'_1] at hk
    cases heq
    exact ⟨k, by omega, by omega, rfl, rfl⟩
  · rintro ⟨k, h2, hk, rfl, rfl⟩
    exact ⟨k, List.mem_range'_1.mpr (by omega), rfl⟩

/-- A used slot is within the directory's size. -/
theorem GoodSlots.lt_count (hs : GoodSlots g v i) {k : Nat} (hk : k < 128 * v.blocks i)
    (hused : (v.entry g i k).inum ≠ -1) : k < v.count i := by
  by_contra hge
  exact hused (hs.stale k (by omega) hk)

/-- A slot within the directory's size is used. -/
theorem GoodSlots.used (hs : GoodSlots g v i) {k : Nat} (hk : k < v.count i) :
    0 ≤ (v.entry g i k).inum := by
  obtain rfl | rfl | h2 : k = 0 ∨ k = 1 ∨ 2 ≤ k := by omega
  · rw [hs.self.2]
    omega
  · exact hs.parent.2
  · exact (hs.live k h2 hk).inum_nonneg

theorem Sound.names_nodup (h : Sound g v) (hi : v.inodeBit i = true)
    (ht : (v.inode i).type = ufsDirectory) :
    ((List.range' 2 (v.count i - 2)).map fun k => (v.entry g i k).cname).Nodup := by
  have hnames := h.tree.names (Volume.node_of_dir hi ht)
  rw [Volume.drop_entries, List.map_map] at hnames
  exact hnames

/-- At most one slot matches a name. -/
theorem Sound.matches_unique (h : Sound g v) (hi : v.inodeBit i = true)
    (ht : (v.inode i).type = ufsDirectory) {name : Bytes} {k k' : Nat}
    (hk : k < 128 * v.blocks i) (hk' : k' < 128 * v.blocks i)
    (hm : (v.entry g i k).Matches name) (hm' : (v.entry g i k').Matches name) : k = k' := by
  have hs := (h.good hi).slots ht
  have hlt := hs.lt_count hk hm.1
  have hlt' := hs.lt_count hk' hm'.1
  have hdots : dot ≠ dotdot := by decide
  -- a live entry is neither `.` nor `..`
  have hlive : ∀ {k}, 2 ≤ k → k < v.count i → (v.entry g i k).cname ≠ dot ∧
      (v.entry g i k).cname ≠ dotdot :=
    fun h2 hlt => ⟨(hs.live _ h2 hlt).ne_dot, (hs.live _ h2 hlt).ne_dotdot⟩
  have h0 := hs.self.1
  have h1 := hs.parent.1
  have hname := hm.2.trans hm'.2.symm
  rcases (show k = 0 ∨ k = 1 ∨ 2 ≤ k by omega) with rfl | rfl | h2 <;>
    rcases (show k' = 0 ∨ k' = 1 ∨ 2 ≤ k' by omega) with rfl | rfl | h2'
  · rfl
  · exact absurd (h0.symm.trans (hname.trans h1)) hdots
  · exact absurd (hname.symm.trans h0) (hlive h2' hlt').1
  · exact absurd (h0.symm.trans (hname.symm.trans h1)) hdots
  · rfl
  · exact absurd (hname.symm.trans h1) (hlive h2' hlt').2
  · exact absurd (hname.trans h0) (hlive h2 hlt).1
  · exact absurd (hname.trans h1) (hlive h2 hlt).2
  · have hmem : k ∈ List.range' 2 (v.count i - 2) := List.mem_range'_1.mpr (by omega)
    have hmem' : k' ∈ List.range' 2 (v.count i - 2) := List.mem_range'_1.mpr (by omega)
    exact List.inj_on_of_nodup_map (h.names_nodup hi ht) hmem hmem' hname

/-! ## `lookup` -/

/-- What `lookup` answers, in terms of nodes. -/
def findName (f : Namespace Nat Bytes Bytes) (p : Int) (name : Bytes) : Int :=
  match if p < 0 then none else f p.toNat with
  | some (.dir parent _) =>
    if Buffer.cStr name = dot then p
    else if Buffer.cStr name = dotdot then parent
    else match f.child p.toNat (Buffer.cStr name) with
      | some j => j
      | none => -eNotFound
  | _ => -eInvalidInode

theorem findName_neg {f : Namespace Nat Bytes Bytes} {p : Int} (h : p < 0) (name : Bytes) :
    findName f p name = -eInvalidInode := by
  rw [findName, if_pos h]

theorem findName_of_not_dir {f : Namespace Nat Bytes Bytes} {n : Nat} (name : Bytes)
    (h : ∀ p es, f n ≠ some (.dir p es)) : findName f n name = -eInvalidInode := by
  rw [findName, if_neg (by omega), Int.toNat_natCast]
  split
  · rename_i heq
    exact absurd heq (h _ _)
  · rfl

theorem findName_invalid {f : Namespace Nat Bytes Bytes} {p : Int} (name : Bytes)
    (h : ∀ n : Nat, p = n → ∀ q es, f n ≠ some (.dir q es)) :
    findName f p name = -eInvalidInode := by
  rcases Int.lt_or_le p 0 with hneg | hpos
  · exact findName_neg hneg name
  · obtain ⟨n, rfl⟩ := Int.eq_ofNat_of_zero_le hpos
    exact findName_of_not_dir name (h n rfl)

theorem findName_dir {f : Namespace Nat Bytes Bytes} {n p : Nat} {es : List (Bytes × Nat)}
    (name : Bytes) (h : f n = some (.dir p es)) :
    findName f n name = if Buffer.cStr name = dot then (n : Int)
      else if Buffer.cStr name = dotdot then p
      else match f.child n (Buffer.cStr name) with
        | some j => (j : Int)
        | none => -eNotFound := by
  rw [findName, if_neg (by omega), Int.toNat_natCast, h]

/-- In a directory, a name is found or there is no such entry. -/
theorem findName_dir_cases {f : Namespace Nat Bytes Bytes} {n p : Nat} {es : List (Bytes × Nat)}
    (name : Bytes) (h : f n = some (.dir p es)) :
    findName f n name = -eNotFound ∨ ∃ j : Nat, findName f n name = j := by
  rw [findName_dir name h]
  split
  · exact .inr ⟨n, rfl⟩
  · split
    · exact .inr ⟨p, rfl⟩
    · split
      · exact .inr ⟨_, rfl⟩
      · exact .inl rfl

/-- `lookup` finds nothing in a directory that has no such entry. -/
theorem findName_eq_notFound {f : Namespace Nat Bytes Bytes} {p : Int} {name : Bytes} :
    findName f p name = -eNotFound ↔ ∃ (n q : Nat) (es : List (Bytes × Nat)), p = n ∧
      f n = some (.dir q es) ∧ Buffer.cStr name ≠ dot ∧ Buffer.cStr name ≠ dotdot ∧
      f.child n (Buffer.cStr name) = none := by
  by_cases hdir : ∃ (n q : Nat) (es : List (Bytes × Nat)), p = n ∧ f n = some (.dir q es)
  · obtain ⟨n, q, es, rfl, hn⟩ := hdir
    rw [findName_dir name hn]
    constructor
    · intro h
      split at h
      · simp only [eNotFound] at h
        omega
      · split at h
        · simp only [eNotFound] at h
          omega
        · split at h
          · simp only [eNotFound] at h
            omega
          · rename_i h1 h2 _ h3
            exact ⟨n, q, es, rfl, hn, h1, h2, h3⟩
    · rintro ⟨m, q', es', hm, -, h1, h2, h3⟩
      obtain rfl : n = m := by omega
      rw [if_neg h1, if_neg h2, h3]
  · rw [findName_invalid name fun n hn q es he => hdir ⟨n, q, es, hn, he⟩]
    constructor
    · intro h
      cases h
    · rintro ⟨n, q, es, hn, he, -⟩
      exact absurd ⟨n, q, es, hn, he⟩ hdir

theorem Sound.stat_of_bit (hs : Sound g v) {n : Nat} (h : v.inodeBit n = true) :
    v.stat g n = .ok (v.inode n) := by
  have hlt := hs.inode_lt h
  rw [Volume.stat, if_neg (by omega), Int.toNat_natCast, if_pos h]

/-- The two answers of `stat`. -/
theorem Sound.stat_cases (hs : Sound g v) (n : Int) :
    (∃ i : Nat, n = i ∧ v.inodeBit i = true ∧ v.stat g n = .ok (v.inode i)) ∨
      (∀ i : Nat, n = i → v.node g i = none) ∧ v.stat g n = .error (-eInvalidInode) := by
  rcases Int.lt_or_le n 0 with hneg | hpos
  · exact .inr ⟨fun i hi => by omega, by rw [Volume.stat, if_pos (.inr hneg)]⟩
  obtain ⟨i, rfl⟩ := Int.eq_ofNat_of_zero_le hpos
  cases hb : v.inodeBit i with
  | true => exact .inl ⟨i, rfl, hb, hs.stat_of_bit hb⟩
  | false =>
      refine .inr ⟨fun j hj => ?_, ?_⟩
      · obtain rfl : i = j := by omega
        exact Volume.node_of_clear hb
      · rw [Volume.stat, Int.toNat_natCast, hb]
        simp

theorem wp_lookup (h : Holds g d v) (hs : Sound g v) (p : Int) (name : Bytes)
    {Q : Int → Disk → Prop} (hQ : Q (findName (v.node g) p name) d) : wp (lookup p name) Q d := by
  rw [lookup, wp_bind, wp_stat h]
  rcases hs.stat_cases p with ⟨i, rfl, hb, hstat⟩ | ⟨hnone, hstat⟩
  · rw [hstat]
    dsimp only
    by_cases ht : (v.inode i).type = ufsDirectory
    · have hg := hs.good hb
      have hslots := hg.slots ht
      have hge := hslots.count_ge
      have hle := v.count_le_blocks i
      rw [if_neg (by simpa using ht), hg.blockCount, Int.toNat_natCast]
      rw [findName_dir name (Volume.node_of_dir hb ht)] at hQ
      have hfound : ∀ k < v.count i, (v.entry g i k).cname = Buffer.cStr name →
          Q (v.entry g i k).inum d → wp (lookupFrom (v.inode i) name (v.blocks i) 0) Q d := by
        intro k hk hname hQ
        have hm : (v.entry g i k).Matches (Buffer.cStr name) :=
          ⟨by have := hslots.used hk; omega, hname⟩
        refine wp_lookupFrom_some h hg (by omega) hm (fun k' hk' hm' => ?_) hQ
          (Nat.zero_add _) (by omega)
        have := hs.matches_unique hb ht (by omega) (by omega) hm hm'
        omega
      split at hQ
      · rename_i hdot
        exact hfound 0 (by omega) (hslots.self.1.trans hdot.symm) (by rwa [hslots.self.2])
      · rename_i hdot
        split at hQ
        · rename_i hdotdot
          refine hfound 1 (by omega) (hslots.parent.1.trans hdotdot.symm) ?_
          rwa [Int.toNat_of_nonneg hslots.parent.2] at hQ
        · rename_i hdotdot
          have hentry := fun j => Namespace.entry_iff (x := Buffer.cStr name) (j := j)
            (Volume.node_of_dir (g := g) hb ht)
          cases hl : (v.node g).child i (Buffer.cStr name) with
          | some j =>
              have hmem := (hentry j).mp (Namespace.entry_of_child hl)
              obtain ⟨k, h2, hk, hname, rfl⟩ := Volume.mem_drop_entries.mp hmem
              rw [hl] at hQ
              dsimp only at hQ
              refine hfound k hk hname ?_
              rwa [Int.toNat_of_nonneg (hslots.used hk)] at hQ
          | none =>
              rw [hl] at hQ
              refine wp_lookupFrom_none h hg (fun k hk hm => ?_) hQ (Nat.zero_add _)
              have hlt := hslots.lt_count hk hm.1
              obtain rfl | rfl | h2 : k = 0 ∨ k = 1 ∨ 2 ≤ k := by omega
              · exact hdot (hm.2.symm.trans hslots.self.1)
              · exact hdotdot (hm.2.symm.trans hslots.parent.1)
              · have hmem := Volume.mem_drop_entries.mpr ⟨k, h2, hlt, hm.2, rfl⟩
                rw [hs.tree.child_eq_some.mpr ((hentry _).mpr hmem)] at hl
                cases hl
    · rw [if_pos (by simpa using ht), wp_pure]
      rw [findName_of_not_dir name fun p es he => ht (Volume.dir_of_node he)] at hQ
      exact hQ
  · rw [findName_invalid name fun i hi q es he => by simp [hnone i hi] at he] at hQ
    rw [hstat, wp_pure]
    exact hQ

/-! ## `read` -/

theorem append_range_add {α : Type*} {buffer : List α} {m n : Nat} {a b c : Nat → α}
    (ha : ∀ k < m, a k = c k) (hb : ∀ k, b k = c (m + k)) :
    buffer ++ (List.range m).map a ++ (List.range n).map b =
      buffer ++ (List.range (m + n)).map c := by
  have hmap : (List.range m).map a = (List.range m).map c :=
    List.map_congr_left fun k hk => ha k (List.mem_range.mp hk)
  rw [List.range_add, List.map_append, List.map_map, hmap, List.append_assoc,
    show b = c ∘ (m + ·) from funext hb]

/-- The loop of `read`, from block `x` of the file on. -/
theorem wp_readFrom (h : Holds g d v) (hg : GoodInode g v i) {Q : Bytes → Disk → Prop}
    {n x remaining : Nat} {buffer : Bytes} (hn : x + n = 30) (hpos : 0 < remaining)
    (hle : 4096 * x + remaining ≤ (v.inode i).size.toNat)
    (hQ : Q (buffer ++ (List.range remaining).map fun k => v.byte g i (4096 * x + k)) d) :
    wp (readFrom (v.inode i) n x remaining buffer) Q d := by
  have hblocks := hg.blocks_le
  induction n generalizing x remaining buffer with
  | zero =>
      unfold Volume.blocks blocksFor at hblocks
      omega
  | succ n ih =>
      have hx : x < v.blocks i := by
        unfold Volume.blocks blocksFor
        omega
      have hregion := hg.region x hx
      have haddr := (Bitmap.inodes).addr_add_len_le (g := g)
      have hget : ∀ k < 4096, (v.data (v.ptr g i x)).get k = v.byte g i (4096 * x + k) := by
        intro k hk
        rw [Volume.byte, show (4096 * x + k) / 4096 = x by omega,
          show (4096 * x + k) % 4096 = k by omega]
      rw [readFrom, if_neg (by omega), wp_bind, wp_readPtr h hg hx]
      rcases Nat.lt_or_ge 4096 remaining with hlt | hge
      · have hmin : min ((ufsBlockSize : Nat) : Int) (remaining : Int) = (4096 : Nat) := by
          simp only [ufsBlockSize]
          omega
        obtain ⟨rest, rfl⟩ : ∃ rest, remaining = 4096 + rest := ⟨remaining - 4096, by omega⟩
        rw [hmin, if_neg (by omega), if_neg (by omega), Int.toNat_natCast,
          show ((4096 + rest : Nat) : Int) - (4096 : Nat) = (rest : Nat) by omega]
        refine ih (by omega) (by omega) (by omega) ?_
        refine (congrArg (fun l => Q l d) (append_range_add hget fun k => ?_)).mpr hQ
        rw [show 4096 * (x + 1) + k = 4096 * x + (4096 + k) by omega]
      · have hmin : min ((ufsBlockSize : Nat) : Int) (remaining : Int) = (remaining : Nat) := by
          simp only [ufsBlockSize]
          omega
        rw [hmin, if_neg (by omega), if_pos (by omega), wp_pure, Int.toNat_natCast]
        have hmap : (List.range remaining).map (v.data (v.ptr g i x)).get =
            (List.range remaining).map fun k => v.byte g i (4096 * x + k) :=
          List.map_congr_left fun k hk => hget k (by have := List.mem_range.mp hk; omega)
        rw [hmap]
        exact hQ

/-- `read` of an inode that is not empty. -/
theorem wp_read (h : Holds g d v) (hs : Sound g v) (hb : v.inodeBit i = true)
    (hpos : 0 < (v.inode i).size) {size : Int} (hsize : 0 < size) {Q : Int × Bytes → Disk → Prop}
    (hQ : Q (((v.content g i).take size.toNat).length, (v.content g i).take size.toNat) d) :
    wp (read i size) Q d := by
  have hg := hs.good hb
  rw [LocalFileSystem.read, if_neg (by omega), wp_bind, wp_stat h, hs.stat_of_bit hb]
  dsimp only
  rw [wp_bind]
  have hmin : min size (v.inode i).size = (min size.toNat (v.inode i).size.toNat : Nat) := by omega
  rw [hmin]
  refine wp_readFrom h hg (Nat.zero_add _) (by omega) (by omega) ?_
  have hcontent : ((List.range (min size.toNat (v.inode i).size.toNat)).map fun k =>
      v.byte g i (4096 * 0 + k)) = (v.content g i).take size.toNat := by
    rw [Volume.content, ← List.map_take, List.take_range]
    simp
  rw [List.nil_append, hcontent, wp_pure]
  exact hQ

end Gunrock
