import Gunrock.Effects

/-!
# Scans of a directory

`lookup` looks at all slots of a directory's blocks; everyone else looks at those within its
size.  They agree as long as the slots behind the size are unused, which is what `Sound` says
of them.

`unlink` of a name that no slot has is an error, although it is documented not to be one
(`wlp_unlink_absent`); that is so on every disk.
-/

namespace Gunrock

open Disk LocalFileSystem Wp

variable {g : Geometry} {d d' : Disk} {v : Volume} {p k n i : Nat} {name : Bytes}
  {numInodes numData : Int}

/-! ## `lookup` -/

/-- In directory `p`, `lookup` of the name answers with what its entries say. -/
def LooksUp (d : Disk) (p : Nat) (name : Bytes) : Prop :=
  ∀ z : Int, (0 ≤ z ∧ ∃ d', (lookup p name).run d = .ok (z, d')) ↔
    (name, z) ∈ Image.entries d.image p

theorem Image.mem_entries {im : Nat → Block} {z : Int} : (name, z) ∈ Image.entries im p ↔
    ∃ k < Image.count im p, (Image.slot im p k).cname = name ∧ (Image.slot im p k).inum = z := by
  simp only [Image.entries, List.mem_map, List.mem_range, Prod.mk.injEq]

namespace Serves

/-- A slot within the size is matched by its own name only. -/
theorem slot_unique (h : Serves g d) (hdir : Image.IsDirectory d.image p) {k' : Nat}
    (hk : k < Image.count d.image p) (hk' : k' < Image.count d.image p)
    (hname : (Image.slot d.image p k).cname = (Image.slot d.image p k').cname) : k = k' := by
  obtain ⟨hb, ht⟩ := h.isDirectory.mp hdir
  have hle := (g.volume d.image).count_le_blocks p
  have hslots := h.goodSlots hdir
  rw [h.count_eq hb] at hk hk'
  rw [h.slot_eq hb (by omega), h.slot_eq hb (by omega)] at hname
  have hused := hslots.used hk
  have hused' := hslots.used hk'
  exact h.sound.matches_unique hb ht (by omega) (by omega) ⟨by omega, hname⟩ ⟨by omega, rfl⟩

/-- The first two slots have the names that `lookup` answers without looking at entries. -/
theorem findName_dots (h : Serves g d) (hdir : Image.IsDirectory d.image p)
    (hdots : name = dot ∨ name = dotdot) : ∃ k < Image.count d.image p,
      (Image.slot d.image p k).cname = name ∧
        findName (nodes g d) p name = (Image.slot d.image p k).inum := by
  obtain ⟨hb, ht⟩ := h.isDirectory.mp hdir
  have hle := (g.volume d.image).count_le_blocks p
  have hslots := h.goodSlots hdir
  have hge := hslots.count_ge
  have hnode := findName_dir name (Volume.node_of_dir (g := g) hb ht)
  rw [h.count_eq hb]
  rcases hdots with rfl | rfl
  · refine ⟨0, by omega, ?_, ?_⟩
    · rw [h.slot_eq hb (by omega), hslots.self.1]
    · rw [hnode, if_pos (by decide), h.slot_eq hb (by omega), hslots.self.2]
  · refine ⟨1, by omega, ?_, ?_⟩
    · rw [h.slot_eq hb (by omega), hslots.parent.1]
    · rw [hnode, if_neg (by decide), if_pos (by decide), h.slot_eq hb (by omega),
        Int.toNat_of_nonneg hslots.parent.2]

theorem findName_entries (h : Serves g d) (hdir : Image.IsDirectory d.image p)
    (hname : (0 : UInt8) ∉ name) (j : Nat) : findName (nodes g d) p name = j ↔
      (name, (j : Int)) ∈ Image.entries d.image p := by
  rw [Image.mem_entries]
  by_cases hdots : name = dot ∨ name = dotdot
  · obtain ⟨k, hk, hcname, hfind⟩ := h.findName_dots hdir hdots
    rw [hfind]
    constructor
    · exact fun hinum => ⟨k, hk, hcname, hinum⟩
    · rintro ⟨k', hk', hcname', hinum⟩
      rwa [h.slot_unique hdir hk hk' (hcname.trans hcname'.symm)]
  · exact h.findName_slot hdir hname hdots j

theorem looksUp (h : Serves g d) (hdir : Image.IsDirectory d.image p)
    (hname : (0 : UInt8) ∉ name) : LooksUp d p name := by
  obtain ⟨z', d', hrun, hz'⟩ := wp_lookup h.idle.toHolds h.sound p name
    (Q := fun z _ => z = findName (nodes g d) p name) rfl
  intro z
  constructor
  · rintro ⟨hz, d'', hrun'⟩
    rw [hrun] at hrun'
    cases hrun'
    obtain ⟨j, rfl⟩ := Int.eq_ofNat_of_zero_le hz
    exact (h.findName_entries hdir hname j).mp hz'.symm
  · intro hmem
    -- an entry has a number
    have hz : 0 ≤ z := by
      rw [h.entries_eq hdir] at hmem
      obtain ⟨e, -, he⟩ := List.mem_map.mp hmem
      cases he
      exact Int.natCast_nonneg _
    obtain ⟨j, rfl⟩ := Int.eq_ofNat_of_zero_le hz
    rw [(h.findName_entries hdir hname j).mpr hmem] at hz'
    exact ⟨hz, d', by rw [hrun, hz']⟩

end Serves

/-- `lookup` finds what is listed and nothing else, in every state of a run that starts from a
proper layout. -/
theorem Reachable.lookup_entries (h : Reachable numInodes numData d)
    (hno : Mkfs.NoOverflow numInodes numData) (hdir : Image.IsDirectory d.image p)
    (hname : (0 : UInt8) ∉ name) : LooksUp d p name := by
  obtain ⟨g, -, -, hs, -⟩ := h.serves hno
  exact hs.looksUp hdir hname

theorem exists_lookup_entries : ∃ d, Reachable 32 32 d ∧ LooksUp d 0 [97] := by
  obtain ⟨d, hd, hP⟩ := exists_reachable Mkfs.mkfs_ordinary (by decide)
    [.create 0 ufsRegularFile [97]] (by decide)
    (P := fun d => decide (Image.IsDirectory d.image 0)) (by decide +kernel)
  exact ⟨d, hd, hd.lookup_entries (by decide) (of_decide_eq_true hP) (by decide)⟩

/-- What is written to the file is the block of the root, where it leaves an entry `f` behind the
last one. -/
theorem exists_not_looksUp : ∃ d, Reachable 33554400 32 d ∧ Image.IsDirectory d.image 0 ∧
    ¬ LooksUp d 0 [102] := by
  obtain ⟨d, hd, hP⟩ := exists_reachable Mkfs.mkfs_overlapping (by decide)
    [.create 0 ufsRegularFile [97], .write 1 (some (forged (-1) 1).get) 4096] (by decide)
    (P := fun d => decide (Image.IsDirectory d.image 0) &&
      decide (result (lookup (0 : Nat) [102]) d = some 1) &&
      !decide (([102], 1) ∈ Image.entries d.image 0)) (by decide +kernel)
  simp only [Bool.and_eq_true, decide_eq_true_eq, Bool.not_eq_true',
    decide_eq_false_iff_not] at hP
  obtain ⟨⟨hdir, hresult⟩, hnot⟩ := hP
  obtain ⟨d', hrun⟩ := run_of_result hresult
  exact ⟨d, hd, hdir, fun hl => hnot ((hl 1).mp ⟨by decide, d', hrun⟩)⟩

/-! ## `unlink` of a name that is not there -/

/-- Where `stat` answers with an inode, it is the one in the image. -/
theorem wlp_stat_image {Q : Except Int Inode → Disk → Prop} (herror : ∀ e, Q (.error e) d)
    (hok : Q (.ok (Image.inode d.image p)) d) : wlp (stat p) Q d := by
  have hinode : (d.image ((Super.decode (d.image 0)).inodeRegionAddr + (p / 32 : Nat)).toNat).inode
      (p % 32) = Image.inode d.image p := rfl
  simp only [stat, readSuperBlock, wlp_bind, wlp_readBlock, wlp_pure, wlp_ite, Int.toNat_natCast,
    Int.toNat_zero, hinode, herror, hok, implies_true, and_self]

theorem wlp_directAt {inode : Inode} {x : Int} {Q : Nat → Disk → Prop} :
    wlp (directAt inode x) Q d ↔
      (0 ≤ x ∧ x < ((directPtrs : Nat) : Int) → Q (inode.ptr x.toNat) d) := by
  rw [directAt, wlp_ite]
  simp only [wlp_pure, wlp_throw, implies_true, and_true]

/-- A block number in range is a pointer as it stands. -/
theorem toNat_signed {w : Nat} (hw : w < 2 ^ 32) (h : 0 ≤ Buffer.signed w) :
    (Buffer.signed w).toNat = w := by
  by_cases hlt : w < 2 ^ 31
  · rw [Buffer.signed_of_lt hlt, Int.toNat_natCast]
  · rw [Buffer.signed, if_neg hlt] at h
    omega

/-- The blocks that the scan of `unlink` goes through. -/
theorem wlp_readBlocks_image {inode : Inode} (hfits : inode.Fits) {Q : List Block → Disk → Prop}
    (hQ : ∀ pEnts : List Block, pEnts.length = n →
      (∀ x < n, pEnts.getD x Buffer.zero = d.image (inode.ptr (i + x))) → Q pEnts d) :
    wlp (readBlocks inode n i) Q d := by
  induction n generalizing i Q with
  | zero =>
      rw [readBlocks, wlp_pure]
      exact hQ [] rfl fun x hx => absurd hx (Nat.not_lt_zero x)
  | succ n ih =>
      simp only [readBlocks, wlp_bind, wlp_directAt, wlp_readBlock, Int.toNat_natCast]
      intro _ hrange
      refine ih fun pEnts hlen hblocks => ?_
      rw [wlp_pure, toNat_signed (hfits.ptr i) hrange.1]
      refine hQ _ (by rw [List.length_cons, hlen]) fun x hx => ?_
      cases x with
      | zero => rfl
      | succ x =>
          rw [List.getD_cons_succ, hblocks x (by omega)]
          congr 2
          omega

theorem cname_zero (k : Nat) : (Block.entry Buffer.zero k).cname = [] := by
  have hget : ((Block.entry Buffer.zero k).name).get 0 = 0 := by
    rw [Block.entry, DirEnt.decode, Buffer.get_slice _ _ (by omega), Buffer.get_slice _ _ (by omega),
      Buffer.get_zero]
  rw [DirEnt.cname, Buffer.cStr, Buffer.toList, List.range_succ_eq_map, List.map_cons,
    List.takeWhile_cons_of_neg (by simpa using hget)]

/-- The scan sees slots of the directory, or empty memory. -/
theorem pEntry_cname {im : Nat → Block} {pEnts : List Block}
    (h : ∀ x < pEnts.length, pEnts.getD x Buffer.zero = im ((Image.inode im p).ptr x)) (k : Nat) :
    (pEntry pEnts k).cname = (Image.slot im p k).cname ∨ (pEntry pEnts k).cname = [] := by
  rw [pEntry]
  rcases Nat.lt_or_ge (k / 128) pEnts.length with hlt | hge
  · rw [h _ hlt]
    exact .inl rfl
  · rw [List.getD_eq_default _ _ hge]
    exact .inr (cname_zero _)

/-- On any disk, `unlink` fails for a name that the directory does not have. -/
theorem wlp_unlink_absent (hne : name ≠ [])
    (habsent : ∀ k < Image.count d.image p, (Image.slot d.image p k).cname ≠ name) :
    wlp (unlink p name) (fun r _ => r < 0) d := by
  have hneg : ∀ (r : Int) (d' : Disk), r < 0 → wlp (pure r : FS Int) (fun r _ => r < 0) d' :=
    fun r d' hr => (wlp_pure r).mpr hr
  rw [unlink, wlp_ite]
  refine ⟨fun _ => hneg _ _ (by decide), fun _ => ?_⟩
  rw [wlp_ite]
  refine ⟨fun _ => hneg _ _ (by decide), fun _ => ?_⟩
  rw [wlp_bind]
  refine wlp_stat_image (fun e => hneg _ _ (by decide)) ?_
  dsimp only
  rw [wlp_ite]
  refine ⟨fun _ => hneg _ _ (by decide), fun _ => ?_⟩
  have hsuper : ∀ {α : Type} (k : Super → FS α) (Q : α → Disk → Prop),
      (∀ s, wlp (k s) Q d) → wlp (readSuperBlock >>= k) Q d := by
    intro α k Q hk
    simp only [readSuperBlock, wlp_bind, wlp_readBlock, wlp_pure]
    exact fun _ => hk _
  refine hsuper _ _ fun super => ?_
  rw [wlp_bind, wlp_beginTransaction]
  intro _
  rw [wlp_bind]
  refine wlp_readBlocks_image (Block.fits_inode _ _) fun pEnts hlen hblocks => ?_
  have hnone : (List.range ((Image.inode d.image p).size / 32).toNat).find? (fun k =>
      decide ((pEntry pEnts k).inum ≠ -1 ∧ name = (pEntry pEnts k).cname)) = none := by
    rw [List.find?_range_eq_none]
    intro k hk
    have hslots : ∀ x < pEnts.length,
        pEnts.getD x Buffer.zero = d.image ((Image.inode d.image p).ptr x) := by
      intro x hx
      have hblock := hblocks x (by omega)
      rwa [Nat.zero_add] at hblock
    rcases pEntry_cname hslots k with hslot | hnil
    · have hother := habsent k hk
      rw [← hslot] at hother
      simp [hother.symm]
    · simp [hnil, hne]
  rw [hnone]
  exact wlp_bind_of fun _ _ => hneg _ _ (by decide)

/-- `unlink` of a name succeeds and changes nothing. -/
def RemovesNothing (d : Disk) (p : Nat) (name : Bytes) : Prop :=
  ∃ d', (unlink p name).run d = .ok (0, d') ∧ d'.image = d.image

/-- A name that was removed is not there. -/
theorem Serves.absent_of_unlink (h : Serves g d) {j : Nat}
    (hr : CanRemove g (g.volume d.image) p name k j)
    (hd' : Idle g d' ((g.volume d.image).removed g p k j)) :
    ∀ k' < Image.count d'.image p, (Image.slot d'.image p k').cname ≠ name := by
  intro k' hk' hname
  have hdir : Image.IsDirectory d.image p := h.isDirectory.mpr ⟨hr.bit, hr.dir⟩
  have hle := (g.volume d.image).count_le_blocks p
  have hlt := hr.lt_count
  have hmem : (name, (Image.slot d'.image p k').inum) ∈ Image.entries d'.image p :=
    Image.mem_entries.mpr ⟨k', hk', hname, rfl⟩
  rw [(h.removesEntry hr hd').entries, List.mem_eraseIdx_iff_getElem] at hmem
  obtain ⟨m, hm, hne, hentry⟩ := hmem
  simp only [Image.entries, List.length_map, List.length_range] at hm
  simp only [Image.entries, List.getElem_map, List.getElem_range, Prod.mk.injEq] at hentry
  refine hne (h.slot_unique hdir hm ?_ ?_)
  · rwa [h.count_eq hr.bit]
  · rw [hentry.1, h.slot_eq hr.bit (by omega), hr.cname]

/-- In no state does `unlink` of an absent name succeed; in a run that starts from a proper layout,
neither does a second `unlink` of a name. -/
theorem Reachable.unlink_absent (h : Reachable numInodes numData d) :
    (∀ p name, Image.IsDirectory d.image p → name ≠ [] → ¬ (name = dot ∨ name = dotdot) →
      (∀ k < Image.count d.image p, (Image.slot d.image p k).cname ≠ name) →
        ¬ RemovesNothing d p name) ∧
    (Mkfs.NoOverflow numInodes numData → ∀ (p : Int) (name : Bytes) (d₁ : Disk),
      (unlink p name).run d = .ok (0, d₁) → ∀ r d₂, (unlink p name).run d₁ = .ok (r, d₂) →
        r ≠ 0) := by
  constructor
  · rintro p name - hne - habsent ⟨d', hrun, -⟩
    exact absurd (wlp_unlink_absent hne habsent _ _ hrun) (Int.lt_irrefl 0)
  · intro hno p name d₁ hrun r d₂ hrun'
    obtain ⟨g, -, -, hs, -⟩ := h.serves hno
    obtain ⟨i, k, j, rfl, hr, hd₁⟩ : ∃ i k j : Nat, p = i ∧
        CanRemove g (g.volume d.image) i name k j ∧
          Idle g d₁ ((g.volume d.image).removed g i k j) := by
      have hw : wp (unlink p name) (fun r d₁ => r = 0 → ∃ i k j : Nat, p = i ∧
          CanRemove g (g.volume d.image) i name k j ∧
            Idle g d₁ ((g.volume d.image).removed g i k j)) d :=
        wp_unlink hs.idle hs.sound (fun r hneg _ _ _ _ hzero => by omega)
          fun i k j hi hr _ hd' _ => ⟨i, k, j, hi, hr, hd'⟩
      exact wlp_of_wp hw _ _ hrun rfl
    have hlt := wlp_unlink_absent hr.name_ne (hs.absent_of_unlink hr hd₁) _ _ hrun'
    omega

theorem exists_unlink_absent : ∃ d, Reachable 32 32 d ∧ ¬ RemovesNothing d 0 [97] := by
  obtain ⟨d, hd, hP⟩ := exists_reachable Mkfs.mkfs_ordinary (by decide) [] (by simp)
    (P := fun d => decide (Image.IsDirectory d.image 0) &&
      decide (∀ k < Image.count d.image 0, (Image.slot d.image 0 k).cname ≠ [97]))
    (by decide +kernel)
  simp only [Bool.and_eq_true, decide_eq_true_eq] at hP
  exact ⟨d, hd, hd.unlink_absent.1 0 [97] hP.1 (by decide) (by decide) hP.2⟩

theorem exists_not_removesNothing : ∃ d, Reachable 32 32 d ∧ Image.IsDirectory d.image 0 ∧
    (∀ k < Image.count d.image 0, (Image.slot d.image 0 k).cname ≠ [97]) ∧
    ¬ RemovesNothing d 0 [97] := by
  obtain ⟨d, hd, hP⟩ := exists_reachable Mkfs.mkfs_ordinary (by decide) [] (by simp)
    (P := fun d => decide (Image.IsDirectory d.image 0) &&
      decide (∀ k < Image.count d.image 0, (Image.slot d.image 0 k).cname ≠ [97]) &&
      decide (result (unlink (0 : Nat) [97]) d = some (-eInvalidName))) (by decide +kernel)
  simp only [Bool.and_eq_true, decide_eq_true_eq] at hP
  obtain ⟨⟨hdir, habsent⟩, hresult⟩ := hP
  obtain ⟨d', hrun⟩ := run_of_result hresult
  refine ⟨d, hd, hdir, habsent, ?_⟩
  rintro ⟨d'', hrun', -⟩
  rw [hrun] at hrun'
  cases hrun'

end Gunrock
