import Gunrock.Scanning
import Gunrock.Statuses

/-!
# A `PUT` that is repeated

A `PUT` that succeeds leaves behind everything that it could make.  Repeated, it finds each
directory and the file, and writes the blocks of the file and their pointers as they are.

The second write changes nothing on any disk (`wlp_write_stored`), given that the bytes behind
the end of the file are those of the inode's block in the table, which is what the scratch buffer
of `write` holds when it fills the last block.
-/

namespace Gunrock

open Disk LocalFileSystem DistributedFileSystemService Wp

variable {g : Geometry} {d d' : Disk} {v : Volume} {i j : Nat} {p : Int}
  {s content path : Bytes} {f f' : Namespace Nat Bytes Bytes}

/-! ## Writing what is there -/

/-- The blocks of file `i` are those that a write of `content` would fill. -/
structure Image.Stored (im : Nat → Block) (i : Nat) (content : Bytes) : Prop where
  size : (inode im i).size = content.length
  data : ∀ x < blocksFor content.length, im ((inode im i).ptr x) =
    fileBlock (fun k => content.getD k 0) content.length
      (blockAt im (super im).inodeRegionAddr (i / 32)) x

/-- A file that has its blocks is not resized. -/
theorem resize_self (super : Super) (inode : Inode) (n : Int) :
    resize super inode n n = pure (some inode) := by
  rw [resize, if_neg (Int.lt_irrefl n), Int.sub_self, Int.toNat_zero, shrinkFile, pure_bind]

theorem wlp_updateInode_same {super : Super} {n : Nat} {h : Inode → Inode} {b : Block}
    (hb : d.image (super.inodeRegionAddr + (n / 32 : Nat)).toNat = b)
    (hf : h (b.inode (n % 32)) = b.inode (n % 32)) :
    wlp (updateInode super n h) (fun b' d' => b' = b ∧ d'.image = d.image) d := by
  subst hb
  simp only [updateInode, wlp_bind, wlp_readBlock, wlp_writeBlock, wlp_pure, hf,
    Block.setInode_inode _ (Nat.mod_lt n (by decide)), image_store_same, and_self, implies_true]

theorem wlp_writeBlocks_same {inode : Inode} (hfits : inode.Fits) {blk : Nat → Block} {n x : Nat}
    (hblk : ∀ y, x ≤ y → y < x + n → d.image (inode.ptr y) = blk y) :
    wlp (writeBlocks inode blk n x) (fun _ d' => d'.image = d.image) d := by
  induction n generalizing d x with
  | zero => exact (wlp_pure _).mpr rfl
  | succ n ih =>
      rw [writeBlocks, wlp_bind, wlp_writeBlock]
      intro hrange
      have hsame : (d.store (Buffer.signed (inode.ptr x)) (blk x)).image = d.image := by
        have hx := hblk x le_rfl (by omega)
        rw [← toNat_signed (hfits.ptr x) hrange.1] at hx
        rw [← hx, image_store_same]
      refine wlp_mono (ih fun y h1 h2 => ?_) fun _ d' him => him.trans hsame
      rw [hsame]
      exact hblk y (by omega) (by omega)

/-- On any disk, a write of what a file contains changes no block. -/
theorem wlp_write_stored (h : Image.Stored d.image i content)
    (hlen : (content.length : Int) ≤ 2 ^ 31 - 4096) :
    wlp (write i (some fun k => content.getD k 0) content.length)
      (fun _ d' => d'.image = d.image) d := by
  have hcnt := blockCount_eq (Int.natCast_nonneg content.length) hlen
  have hfits : (Image.inode d.image i).Fits := Block.fits_inode _ _
  dsimp only [write]
  rw [hcnt, wlp_ite]
  refine ⟨fun _ => (wlp_pure _).mpr rfl, fun _ => ?_⟩
  rw [wlp_ite]
  refine ⟨fun _ => (wlp_pure _).mpr rfl, fun hle => ?_⟩
  have h30 : blocksFor content.length ≤ 30 := by
    simp only [directPtrs] at hle
    omega
  rw [wlp_bind]
  refine wlp_stat_image (fun _ => (wlp_pure _).mpr rfl) ?_
  dsimp only
  rw [wlp_ite]
  refine ⟨fun _ => (wlp_pure _).mpr rfl, fun _ => ?_⟩
  rw [readSuperBlock, wlp_bind, wlp_bind, wlp_readBlock]
  intro _
  rw [wlp_pure, wlp_bind, wlp_beginTransaction]
  intro _
  have hsame : { Image.inode d.image i with size := (content.length : Int) } =
      Image.inode d.image i := by
    rw [← h.size]
  rw [h.size, hcnt, resize_self, pure_bind]
  dsimp only
  rw [hsame, wlp_bind, Int.toNat_natCast, Int.toNat_natCast]
  refine wlp_mono (wlp_updateInode_same rfl rfl) ?_
  rintro scratch d₂ ⟨rfl, him₂⟩
  rw [wlp_bind, writeData_zero _ _ _ h30]
  refine wlp_mono (wlp_writeBlocks_same hfits fun y _ hy => ?_) fun _ d₃ him₃ => ?_
  · rw [him₂]
    exact h.data y (by omega)
  · rw [wlp_bind, wlp_commit, wlp_pure]
    exact him₃.trans him₂

theorem CanWrite.again {buf : Nat → UInt8} {size : Nat} {scratch : Block}
    (hw : CanWrite g v i size) : CanWrite g (v.rewrite g i buf size scratch) i size where
  bit := hw.bit
  type := by
    rw [CanWrite.inode_self]
    exact hw.type
  pos := hw.pos
  le := hw.le
  room := by
    rw [CanWrite.blocks_self, Nat.sub_self]
    exact Nat.zero_le _

/-- What a write has put into a file is stored, down to the end of the last block. -/
theorem Serves.stored (h : Serves g d) {scratch : Block}
    (hw : CanWrite g (g.volume d.image) j content.length)
    (ht : ((g.volume d.image).rewrite g j (fun k => content.getD k 0) content.length
      scratch).TableBlock (j / 32) scratch)
    (hd' : Idle g d' ((g.volume d.image).rewrite g j (fun k => content.getD k 0) content.length
      scratch)) : Image.Stored d'.image j content := by
  have h' : Serves g d' := .of_idle hd' (hw.sound h.sound)
  have hvol := hd'.volume
  have hlt := h.sound.inode_lt hw.bit
  have hregion := g.numInodes_le_region
  have hbit : (g.volume d'.image).inodeBit j = true := by
    rw [hvol]
    exact hw.bit
  have hg := h'.sound.good hbit
  have htable : d'.image (g.inodeRegionAddr + j / 32) = scratch :=
    (hd'.toHolds.tableBlock (by omega)).eq ht
  have hblock : Image.blockAt d'.image (Image.super d'.image).inodeRegionAddr (j / 32) = scratch := by
    rw [h'.super_eq, ← htable]
    rfl
  refine ⟨?_, fun x hx => ?_⟩
  · rw [h'.inode_eq hbit, hvol, CanWrite.inode_self]
  · have hblocks : x < (g.volume d'.image).blocks j := by
      rw [hvol, CanWrite.blocks_self]
      exact hx
    have hdata : (g.volume d'.image).data ((g.volume d'.image).ptr g j x) =
        fileBlock (fun k => content.getD k 0) content.length scratch x := by
      rw [hvol, hw.ptr_self h.sound hx, hw.data_newPtr h.sound hx]
    rw [Geometry.data_volume (hg.ptr_lt hblocks)] at hdata
    rw [h'.inode_eq hbit, ← hg.dataBlock_ptr hblocks, hblock, ← hdata, Geometry.dataBlock]

/-! ## What was made is found -/

theorem findName_grows (h : f.Grows f') {x : Bytes} (hx : 0 ≤ findName f p x) :
    findName f' p x = findName f p x := by
  have hdir : ∃ (n q : Nat) (es : List (Bytes × Nat)), p = n ∧ f n = some (.dir q es) := by
    by_contra hno
    rw [findName_invalid x fun n hn q es he => hno ⟨n, q, es, hn, he⟩] at hx
    exact absurd hx (by decide)
  obtain ⟨n, q, es, rfl, hn⟩ := hdir
  obtain ⟨es', hn', -⟩ := h n q es hn
  rw [findName_dir x hn] at hx ⊢
  rw [findName_dir x hn']
  split
  · rfl
  · split
    · rfl
    · rename_i hdot hdotdot
      rw [if_neg hdot, if_neg hdotdot] at hx
      cases hc : f.child n (Buffer.cStr x) with
      | none =>
          rw [hc] at hx
          exact absurd hx (by decide)
      | some k => rw [h.child hc]

theorem follow_grows (h : f.Grows f') {xs : List Bytes} (hxs : 0 ≤ follow f p xs) :
    follow f' p xs = follow f p xs := by
  induction xs generalizing p with
  | nil => rfl
  | cons x xs ih =>
      rw [follow] at hxs
      rw [follow, follow]
      split at hxs
      · omega
      · rename_i hpos
        rw [findName_grows h (Int.not_lt.mp hpos), if_neg hpos, if_neg hpos, ih hxs]

/-- On the way from the disk `d` to `d'`, what was missing of the components `xs` was made: they
lead from inode `p` to inode `q`. -/
structure Opens (g : Geometry) (d : Disk) (p : Int) (xs : List Bytes) (q : Int) (d' : Disk) :
    Prop where
  serves : Serves g d'
  grows : (nodes g d).Grows (nodes g d')
  follow : Gunrock.follow (nodes g d') p xs = q
  nonneg : 0 ≤ q

namespace Opens

variable {xs ys : List Bytes} {q r : Int} {d₁ : Disk}

theorem refl (h : Serves g d) (hp : 0 ≤ p) : Opens g d p [] p d := ⟨h, .refl _, rfl, hp⟩

theorem trans (h : Opens g d p xs q d₁) (h' : Opens g d₁ q ys r d') :
    Opens g d p (xs ++ ys) r d' := by
  have hxs : Gunrock.follow (nodes g d') p xs = q := by
    rw [follow_grows h'.grows (h.follow ▸ h.nonneg), h.follow]
  exact ⟨h'.serves, h.grows.trans h'.grows, by rw [follow_append hxs h.nonneg, h'.follow], h'.nonneg⟩

end Opens

section Walk

variable {x : Bytes} {xs : List Bytes} {type : Int} {α : Type} {full bad m : FS α} {next : Int → FS α}

/-- A component of the path: it is there, or it is made. -/
theorem Enters.opens (hm : Enters g d type p x full bad next m d') (h : Serves g d) :
    m = full ∨ m = bad ∨ ∃ r, m = next r ∧ Opens g d p [x] r d' := by
  cases hm with
  | full => exact .inl rfl
  | bad => exact .inr (.inl rfl)
  | @make i _ hi hnf hmake hd' hinv =>
      subst hi
      refine .inr (.inr ⟨_, rfl, ?_⟩)
      obtain ⟨n, q, es, hn, hdir, hdot, hdotdot, hchild⟩ := findName_eq_notFound.mp hnf
      obtain rfl : i = n := by omega
      have hfree : nodes g d (inventory g d).newInum = none := Inventory.node_newInum hmake
      have hnode : nodes g d' = (nodes g d).link i (Buffer.cStr x) (inventory g d).newInum
          (newNode type i) := congrArg Inventory.node hinv
      refine ⟨hd', ?_, ?_, Int.natCast_nonneg _⟩
      · rw [hnode]
        exact Namespace.grows_link _ _ hfree
      · rw [follow_singleton, hnode, findName_dir x (Namespace.link_parent hdir hfree), if_neg hdot,
          if_neg hdotdot, Namespace.child_link hdir hfree hchild]
  | found hj =>
      exact .inr (.inr ⟨_, rfl, h, .refl _, by rw [follow_singleton, hj], Int.natCast_nonneg _⟩)

theorem Serves.wlp_enter (h : Serves g d) (ht : type = ufsDirectory ∨ type = ufsRegularFile)
    {Q : α → Disk → Prop} (hfull : ∀ d', wlp full Q d') (hbad : ∀ d', wlp bad Q d')
    (hnext : ∀ r d', Opens g d p [x] r d' → wlp (next r) Q d') :
    wlp (enter type p x full bad next) Q d := by
  obtain ⟨m, d', hm, hrun⟩ := h.enters ht (p := p) (x := x) full bad next
  rw [wlp_congr_run hrun]
  rcases hm.opens h with rfl | rfl | ⟨r, rfl, hopens⟩
  · exact hfull d'
  · exact hbad d'
  · exact hnext r d' hopens

/-! ## The first time -/

/-- The loop of `put` ends in front of the last component. -/
theorem Serves.wlp_putAlong_opens (h : Serves g d) (hp : 0 ≤ p) (hxs : xs ≠ []) :
    wlp (putAlong p xs) (fun out d' => ∀ target, out = .ok target →
      ∃ ys, xs = ys ++ [target.2] ∧ Opens g d p ys target.1 d') d := by
  induction xs generalizing d p with
  | nil => exact absurd rfl hxs
  | cons x xs ih =>
      by_cases hne : xs = []
      · rw [hne, putAlong, wlp_pure]
        rintro _ ⟨⟩
        exact ⟨[], rfl, .refl h hp⟩
      · rw [putAlong_cons p x hne]
        refine h.wlp_enter (.inl rfl) (wlp_pure_error _) (wlp_pure_error _) fun r d₁ hr => ?_
        refine wlp_mono (ih hr.serves hr.nonneg hne) fun out d' hout target hok => ?_
        obtain ⟨ys, hys, hopens⟩ := hout target hok
        exact ⟨x :: ys, by rw [hys, List.cons_append], hr.trans hopens⟩

theorem Serves.wlp_openFile (h : Serves g d) : wlp (openFile p x)
    (fun out d' => ∀ r, out = .ok r → Opens g d p [x] r d') d := by
  rw [openFile_eq]
  refine h.wlp_enter (.inr rfl) (wlp_pure_error _) (wlp_pure_error _) fun r d₁ hr => ?_
  rw [wlp_pure]
  rintro r ⟨⟩
  exact hr

end Walk

/-- The path `s` leads to file `j`, into which `content` was written last. -/
structure PutAt (g : Geometry) (d : Disk) (s content : Bytes) (j : Nat) : Prop where
  serves : Serves g d
  follow : Gunrock.follow (nodes g d) 0 (components s) = j
  /-- The last component is not empty. -/
  last : (components s).getLast? ≠ some []
  can : CanWrite g (g.volume d.image) j content.length
  stored : Image.Stored d.image j content

/-- What a write leaves behind. -/
theorem Opens.putAt {d₁ : Disk} {q r : Int} (h : Opens g d 0 (components s) q d₁)
    (hlast : (components s).getLast? ≠ some []) (hlen : (content.length : Int) ≤ 2 ^ 31 - 4096)
    (hrun : (write q (some fun k => content.getD k 0) content.length).run d₁ = .ok (r, d'))
    (hr : 0 ≤ r) : ∃ j, PutAt g d' s content j := by
  obtain ⟨j, m, buf, scratch, rfl, hbuf, hm, hw, ht, hd'⟩ := h.serves.of_write hlen hrun hr
  obtain rfl : content.length = m := by omega
  cases hbuf
  refine ⟨j, .of_idle hd' (hw.sound h.serves.sound), ?_, hlast, ?_, h.serves.stored hw ht hd'⟩
  · have hgrows : (nodes g d₁).Grows (nodes g d') := by
      rw [nodes, nodes, hd'.volume, hw.node_eq h.serves.sound]
      exact Namespace.grows_setFile (Volume.node_of_file hw.bit hw.type_ne)
    rw [follow_grows hgrows (h.follow ▸ h.nonneg), h.follow]
  · rw [hd'.volume]
    exact hw.again

theorem Serves.wlp_put_putAt (h : Serves g d) (hlen : (content.length : Int) ≤ 2 ^ 31 - 4096) :
    wlp (put ⟨.put, pathPrefix ++ s, content⟩)
      (fun handled d' => ∀ response, handled = .ok response → ∃ j, PutAt g d' s content j) d := by
  rw [put_eq, wlp_bind]
  refine wlp_mono (h.wlp_putAlong_opens le_rfl (components_ne_nil s)) fun out d₁ hout => ?_
  rcases out with e | ⟨q, y⟩
  · exact wlp_pure_error e d₁
  · obtain ⟨ys, hys, hwalk⟩ := hout (q, y) rfl
    rw [putEnd, wlp_ite]
    refine ⟨fun _ => wlp_pure_error _ _, fun hy => ?_⟩
    have hlast : (components s).getLast? ≠ some [] := by
      rw [hys, List.getLast?_concat]
      simpa using hy
    rw [putFile, wlp_bind]
    refine wlp_mono hwalk.serves.wlp_openFile fun out d₂ hout => ?_
    rcases out with e | r
    · exact wlp_pure_error e d₂
    · have hopens := hwalk.trans (hout r rfl)
      rw [← hys] at hopens
      dsimp only
      rw [int32_length hlen, wlp_bind]
      intro r' d' hwrite
      rw [wlp_ite]
      refine ⟨fun _ => wlp_pure_error _ _, fun hr' => ?_⟩
      rw [wlp_pure]
      exact fun _ _ => hopens.putAt hlast hlen hwrite (Int.not_lt.mp hr')

/-! ## The second time -/

/-- The same `PUT` again. -/
theorem PutAt.wp_put (h : PutAt g d s content j)
    (hlen : (content.length : Int) ≤ 2 ^ 31 - 4096) : wp (put ⟨.put, pathPrefix ++ s, content⟩)
      (fun handled d' => (∃ text, handled = .ok ⟨200, text⟩) ∧ d'.image = d.image) d := by
  obtain ⟨ys, y, hys⟩ := components_eq_concat s
  have hy : y ≠ [] := by
    rintro rfl
    exact h.last (by rw [hys, List.getLast?_concat])
  obtain ⟨hq, hfind⟩ := nonneg_of_follow_concat (hys ▸ h.follow)
  rw [put_eq, wp_bind, hys,
    wp_congr_run (h.serves.putAlong_append (List.cons_ne_nil y []) rfl hq), putAlong, wp_pure,
    putEnd, if_neg hy, putFile, openFile_eq, wp_bind,
    wp_congr_run (h.serves.enter_found (hfind ▸ Int.natCast_nonneg j)), hfind, wp_pure]
  dsimp only
  rw [int32_length hlen, wp_bind]
  obtain ⟨r, d', hrun, rfl⟩ : wp (write j (some fun k => content.getD k 0) content.length)
      (fun r _ => r = content.length) d :=
    wp_write_file h.serves.idle h.serves.sound h.can.bit h.can.type _ h.can.pos h.can.le
      (fun hlt => absurd h.can.room (Nat.not_le.mpr hlt)) fun _ _ _ _ _ => rfl
  refine ⟨_, d', hrun, ?_⟩
  dsimp only
  rw [if_neg (by omega), wp_pure]
  exact ⟨⟨_, rfl⟩, wlp_write_stored h.stored hlen _ _ hrun⟩

/-! ## Reachable states -/

/-- If a `PUT` to the path `s` is answered by `200`, it is so again, and then changes no block. -/
def PutIdempotent (d : Disk) (s content : Bytes) : Prop :=
  ∀ response d', (invokeServiceMethod ⟨.put, pathPrefix ++ s, content⟩).run d = .ok (response, d') →
    response.status = 200 →
    ∃ response' d'', (invokeServiceMethod ⟨.put, pathPrefix ++ s, content⟩).run d' =
      .ok (response', d'') ∧ response'.status = 200 ∧ d''.image = d'.image

theorem Serves.putIdempotent (h : Serves g d) (hlen : (content.length : Int) ≤ 2 ^ 31 - 4096) :
    PutIdempotent d s content := by
  intro response d' hrun hstatus
  obtain ⟨handled, d₁, hput, hrespond⟩ := run_bind_ok.mp hrun
  obtain ⟨hsame, rfl⟩ := wlp_of_wp (wp_respond handled) _ _ hrespond
  have hput : (put ⟨.put, pathPrefix ++ s, content⟩).run d = .ok (handled, d') := hput
  obtain ⟨-, ok, -, ha, -⟩ := wlp_of_wp (h.wp_put hlen s) _ _ hput
  cases ok with
  | false =>
      obtain ⟨e, he, rfl⟩ := ha
      exact absurd (hsame.symm.trans hstatus) he
  | true =>
      obtain ⟨text, rfl⟩ := ha
      obtain ⟨j, hat⟩ := h.wlp_put_putAt hlen _ _ hput _ rfl
      rw [invokeServiceMethod]
      have hagain : wp (put ⟨.put, pathPrefix ++ s, content⟩ >>= respond)
          (fun response' d'' => response'.status = 200 ∧ d''.image = d'.image) d' := by
        rw [wp_bind]
        refine wp_mono (hat.wp_put hlen) ?_
        rintro handled d'' ⟨⟨text', rfl⟩, him⟩
        exact (wp_pure _).mpr ⟨rfl, him⟩
      exact hagain

/-- A `PUT` that succeeded changes nothing when it is repeated, in every state of a run that starts
from a proper layout. -/
theorem Reachable.put_idempotent {numInodes numData : Int} (h : Reachable numInodes numData d)
    (hno : Mkfs.NoOverflow numInodes numData) (s content : Bytes)
    (hlen : (content.length : Int) ≤ 2 ^ 31 - 4096) : PutIdempotent d s content := by
  obtain ⟨g, -, -, hs, -⟩ := h.serves hno
  exact hs.putIdempotent hlen

theorem exists_put_idempotent : ∃ d, Reachable 32 32 d ∧
    (∃ response d', (invokeServiceMethod ⟨.put, pathPrefix ++ [97], [120]⟩).run d =
      .ok (response, d') ∧ response.status = 200) ∧ PutIdempotent d [97] [120] := by
  obtain ⟨d, hd, hP⟩ := exists_reachable Mkfs.mkfs_ordinary (by decide) [] (by simp)
    (P := returns (invokeServiceMethod ⟨.put, pathPrefix ++ [97], [120]⟩) fun response _ =>
      decide (response.status = 200)) (by decide +kernel)
  obtain ⟨response, d', hput, hstatus⟩ := run_of_returns hP
  exact ⟨d, hd, ⟨response, d', hput, of_decide_eq_true hstatus⟩,
    hd.put_idempotent (by decide) [97] [120] (by decide)⟩

/-- The body takes the block of the root, where it enters the root itself as `f`. -/
theorem exists_not_putIdempotent : ∃ (d : Disk) (content : Bytes), Reachable 33554400 32 d ∧
    (content.length : Int) ≤ 2 ^ 31 - 4096 ∧ ¬ PutIdempotent d [102] content := by
  obtain ⟨d, hd, hP⟩ := exists_reachable Mkfs.mkfs_overlapping (by decide) [] (by simp)
    (P := returns (invokeServiceMethod ⟨.put, pathPrefix ++ [102], (forged 0 0).toList.take 96⟩)
      fun response => returns
        (invokeServiceMethod ⟨.put, pathPrefix ++ [102], (forged 0 0).toList.take 96⟩)
        fun response' _ => decide (response.status = 200) && !decide (response'.status = 200))
    (by decide +kernel)
  obtain ⟨response, d', hput, hP⟩ := run_of_returns hP
  obtain ⟨response', d'', hput', hP⟩ := run_of_returns hP
  simp only [Bool.and_eq_true, decide_eq_true_eq, Bool.not_eq_true',
    decide_eq_false_iff_not] at hP
  refine ⟨d, (forged 0 0).toList.take 96, hd, by decide +kernel, fun hsame => ?_⟩
  obtain ⟨_, _, hagain, hstatus, -⟩ := hsame response d' hput hP.1
  rw [hput'] at hagain
  cases hagain
  exact hP.2 hstatus

end Gunrock
