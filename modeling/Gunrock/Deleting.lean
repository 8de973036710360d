import Gunrock.Getting

/-!
# `DELETE`

When `del` succeeds (`Deletable`), in terms of what the image says about the path, and
that it changes nothing otherwise.  Afterwards a `GET` of the path finds nothing: the
entry is gone, and no other walk was made possible by that.
-/

namespace Gunrock

open Disk LocalFileSystem DistributedFileSystemService Wp

/-! ## Which paths can be deleted -/

/-- One slash at the end of a path does not count. -/
def dropSlash (s : Bytes) : Bytes := if s.getLast? = some 47 then s.dropLast else s

/-- The entry `x` of directory `p` is for a file, or for a directory without entries. -/
def Image.NamesRemovable (im : Nat → Block) (p : Nat) (x : Bytes) : Prop :=
  ∃ k j : Nat, Live im p k ∧ (slot im p k).cname = x ∧ (slot im p k).inum = j ∧
    (IsFile im j ∨ IsDirectory im j ∧ ∀ k', ¬ Live im j k')

/-- The last component of the path is a proper name, those before it lead to a directory,
and there it names something that can be removed. -/
def Deletable (d : Disk) (s : Bytes) : Prop :=
  s ≠ [] ∧ ∃ (xs : List Bytes) (x : Bytes) (p : Nat), components (dropSlash s) = xs ++ [x] ∧
    x ≠ [] ∧ x ≠ dot ∧ x ≠ dotdot ∧ Resolves d 0 xs p ∧ Image.NamesRemovable d.image p x

/-- `DELETE` does what it should: it answers `200` if the path can be deleted, and then the
path is gone; otherwise it throws a `ClientError`, and the image is what it was. -/
def DeletesRight (d : Disk) (s body body' : Bytes) : Prop :=
  (Deletable d s → ∃ response d', (del ⟨.delete, pathPrefix ++ s, body⟩).run d =
    .ok (.ok response, d') ∧ response.status = 200 ∧ ∃ e d'',
      (DistributedFileSystemService.get ⟨.get, pathPrefix ++ s, body'⟩).run d' =
        .ok (.error (.clientError e), d'') ∧ e.statusCode = 404) ∧
  (¬ Deletable d s → ∃ e d', (del ⟨.delete, pathPrefix ++ s, body⟩).run d =
    .ok (.error (.clientError e), d') ∧ d'.image = d.image)

variable {g : Geometry} {d d' : Disk} {v : Volume} {i j k p : Nat} {numInodes numData : Int}
  {s x : Bytes} {xs : List Bytes}

/-- `GET` and `DELETE` mean the same components. -/
theorem trimmed_of_dropSlash (h : components (dropSlash s) = xs ++ [x]) (hx : x ≠ []) :
    trimmed s = xs ++ [x] := by
  rw [dropSlash] at h
  split at h
  · rename_i hlast
    obtain ⟨l, rfl⟩ := List.getLast?_eq_some_iff.mp hlast
    rw [List.dropLast_concat] at h
    have hcomp : components (l ++ [47]) = components l ++ [[]] :=
      List.splitOn_append_cons_self l []
    rw [trimmed, hcomp, if_pos (by simp), List.dropLast_concat, h]
  · rw [trimmed, h, if_neg (by simpa using hx)]

theorem DirEnt.cStr_cname (e : DirEnt) : Buffer.cStr e.cname = e.cname :=
  Buffer.cStr_of_notMem (Buffer.zero_notMem_cStr _)

/-- What the image says about an entry, and when `unlink` removes it. -/
theorem Serves.namesRemovable_iff (h : Serves g d) (hx : x ≠ []) :
    Image.NamesRemovable d.image p x ↔ ∃ k j, CanRemove g (g.volume d.image) p x k j := by
  have hchild : ∀ {k j : Nat}, Image.Live d.image p k →
      (Image.slot d.image p k).inum = (j : Int) → (g.volume d.image).inodeBit j = true := by
    intro k j hl hinum
    obtain ⟨n, hn⟩ := h.sound.tree.target (h.entry_iff.mpr ⟨k, hl, rfl, hinum⟩)
    exact Volume.bit_of_node hn
  constructor
  · rintro ⟨k, j, hl, hname, hinum, hj⟩
    obtain ⟨hslot, -⟩ := h.live_entry hl
    obtain ⟨hd, h2, hk⟩ := h.live.mp hl
    obtain ⟨hb, hdir⟩ := h.isDirectory.mp hd
    refine ⟨k, j, hb, hdir, hx, h2, hk, hslot ▸ hname, hslot ▸ hinum, fun ht => ?_⟩
    rcases hj with hfile | ⟨hdirj, hempty⟩
    · rw [(h.isFile.mp hfile).2] at ht
      cases ht
    · by_contra hgt
      exact hempty 2 (h.live.mpr ⟨hdirj, le_rfl, by omega⟩)
  · rintro ⟨k, j, hr⟩
    have hl : Image.Live d.image p k :=
      h.live.mpr ⟨h.isDirectory.mpr ⟨hr.bit, hr.dir⟩, hr.two_le, hr.lt_count⟩
    obtain ⟨hslot, -⟩ := h.live_entry hl
    have hinum : (Image.slot d.image p k).inum = j := hslot ▸ hr.inum
    refine ⟨k, j, hl, hslot ▸ hr.cname, hinum, ?_⟩
    have hbj := hchild hl hinum
    rcases (h.sound.good hbj).type with ht | ht
    · refine .inr ⟨h.isDirectory.mpr ⟨hbj, ht⟩, fun k' hk' => ?_⟩
      obtain ⟨-, h2, hlt⟩ := h.live.mp hk'
      have hempty := hr.empty ht
      omega
    · exact .inl (h.isFile.mpr ⟨hbj, ht⟩)

/-! ## Walks after a removal -/

section Walks

variable {f : Namespace Nat Bytes Bytes} {y : Bytes} {q : Nat}

/-- A lookup fails now, or answers what it did, which was not the removed node. -/
theorem findName_unlink (hr : f.Removable p x j) (ht : f.IsTree 0) (hq : q ≠ j) (y : Bytes) :
    findName (f.unlink p x j) q y < 0 ∨
      (findName (f.unlink p x j) q y = findName f q y ∧ findName f q y ≠ j) := by
  by_cases hdir : ∃ pp es, (f.unlink p x j) q = some (.dir pp es)
  · obtain ⟨pp, es, hnew⟩ := hdir
    obtain ⟨es', hold, -⟩ := hr.dir_of_unlink hnew
    have hpp : pp ≠ j := by
      rintro rfl
      by_cases h0 : q = 0
      · subst h0
        obtain ⟨es₀, hroot⟩ := ht.root
        rw [hold] at hroot
        cases hroot
        exact hq rfl
      · obtain ⟨i, z, hi⟩ := ht.exists_entry hold h0
        obtain rfl := ht.parent hi hold
        exact hr.leaf hi
    rw [findName_dir y hnew, findName_dir y hold]
    split
    · exact .inr ⟨rfl, by omega⟩
    · split
      · exact .inr ⟨rfl, by omega⟩
      · cases hc : (f.unlink p x j).child q (Buffer.cStr y) with
        | none => exact .inl (by decide)
        | some k =>
            obtain ⟨hk, hkj⟩ := (hr.entry_unlink ht).mp (Namespace.entry_of_child hc)
            rw [ht.child_eq_some.mpr hk]
            exact .inr ⟨rfl, by dsimp only; omega⟩
  · rw [findName_of_not_dir y fun pp es he => hdir ⟨pp, es, he⟩]
    exact .inl (by decide)

theorem follow_unlink (hr : f.Removable p x j) (ht : f.IsTree 0) (hq : q ≠ j) (xs : List Bytes) :
    follow (f.unlink p x j) q xs < 0 ∨
      (follow (f.unlink p x j) q xs = follow f q xs ∧ follow f q xs ≠ j) := by
  induction xs generalizing q with
  | nil => exact .inr ⟨rfl, by rw [follow]; omega⟩
  | cons y ys ih =>
      rw [follow, follow]
      rcases findName_unlink hr ht hq y with hneg | ⟨heq, hne⟩
      · exact .inl (by rwa [if_pos hneg])
      · rw [heq]
        split
        · rename_i hneg
          exact .inl hneg
        · rename_i hpos
          obtain ⟨q', hq'⟩ := Int.eq_ofNat_of_zero_le (Int.not_lt.mp hpos)
          rw [hq'] at hne ⊢
          exact ih (by omega)

/-- The path to the removed node leads nowhere. -/
theorem follow_unlink_self (hr : f.Removable p x j) (ht : f.IsTree 0)
    (hx : x ≠ dot ∧ x ≠ dotdot) (hnul : Buffer.cStr x = x) (hxs : follow f 0 xs = p) :
    follow (f.unlink p x j) 0 (xs ++ [x]) < 0 := by
  have h0 : 0 ≠ j := by
    rintro rfl
    exact ht.not_root hr.entry
  obtain ⟨pp, es, hp, -⟩ := hr.entry
  have hfind : findName f p x = j := by
    rw [findName_dir x hp, hnul, if_neg hx.1, if_neg hx.2, ht.child_eq_some.mpr hr.entry]
  rw [follow_concat]
  split
  · rename_i hneg
    exact hneg.1
  · rename_i hpos
    rcases follow_unlink (q := 0) hr ht h0 xs with hneg | ⟨heq, -⟩
    · rw [not_and_not_right] at hpos
      have hnil := hpos hneg
      subst hnil
      rw [follow] at hneg
      omega
    · have heq : follow (f.unlink p x j) 0 xs = follow f 0 xs := heq
      rw [heq, hxs]
      rcases findName_unlink hr ht hr.ne x with hneg | ⟨-, hne⟩
      · exact hneg
      · exact absurd hfind hne

end Walks

/-! ## All calls of `del` -/

/-- What can be deleted, in terms of nodes. -/
theorem Serves.deletable_iff (h : Serves g d) (hc : components (dropSlash s) = xs ++ [x]) :
    Deletable d s ↔
      ∃ p k j : Nat, follow (nodes g d) 0 xs = p ∧ CanRemove g (g.volume d.image) p x k j := by
  constructor
  · rintro ⟨-, ys, y, p, hc', hy, -, -, hr, hrem⟩
    rw [hc] at hc'
    obtain ⟨rfl, rfl⟩ := List.concat_inj.mp (by simpa only [List.concat_eq_append] using hc')
    obtain ⟨k, j, hr'⟩ := (h.namesRemovable_iff hy).mp hrem
    exact ⟨p, k, j, ((h.resolves_iff le_rfl).mp hr).1, hr'⟩
  · rintro ⟨p, k, j, hp, hr⟩
    have hlive := ((h.sound.good hr.bit).slots hr.dir).live k hr.two_le hr.lt_count
    refine ⟨?_, xs, x, p, hc, hr.name_ne, hr.cname ▸ hlive.ne_dot, hr.cname ▸ hlive.ne_dotdot,
      (h.resolves_iff le_rfl).mpr ⟨hp, by omega⟩, (h.namesRemovable_iff hr.name_ne).mpr ⟨k, j, hr⟩⟩
    rintro rfl
    have hnil : components (dropSlash []) = [] ++ [[]] := rfl
    rw [hnil] at hc
    exact hr.name_ne (List.concat_inj.mp (by simpa only [List.concat_eq_append] using hc)).2.symm

theorem CanRemove.findName (hs : Sound g v) (hr : CanRemove g v p x k j) :
    findName (v.node g) p x = j := by
  have hlive := ((hs.good hr.bit).slots hr.dir).live k hr.two_le hr.lt_count
  have hnul : Buffer.cStr x = x := hr.cname ▸ DirEnt.cStr_cname _
  rw [findName_dir x (Volume.node_of_dir hr.bit hr.dir), hnul, if_neg (hr.cname ▸ hlive.ne_dot),
    if_neg (hr.cname ▸ hlive.ne_dotdot), hs.tree.child_eq_some.mpr hr.removable.entry]

/-- `del` from the lookup of the entry on. -/
theorem wp_delEntry (h : Idle g d v) (hs : Sound g v) {p : Int} {Q : Handled → Disk → Prop}
    (hfail : (∀ i k j : Nat, p = i → ¬ CanRemove g v i x k j) → ∀ e, e.statusCode ≠ 200 →
      ∀ d', Idle g d' v → d'.image = d.image → Q (.error (.clientError e)) d')
    (hok : ∀ i k j : Nat, p = i → CanRemove g v i x k j → ∀ text d',
      Idle g d' (v.removed g i k j) → Q (.ok ⟨200, text⟩) d') :
    wp (delEntry p x) Q d := by
  rw [delEntry, wp_bind]
  refine wp_lookup h.toHolds hs p x ?_
  split
  · rename_i hneg
    rw [wp_pure]
    refine hfail (fun i k j hi hr => ?_) _ (by decide) d h rfl
    subst hi
    rw [hr.findName hs] at hneg
    omega
  · rw [wp_bind]
    refine wp_unlink h hs (fun r hr hno d' hd' him => ?_) fun i k j hi hr d' hd' => ?_
    · split
      · rw [wp_pure]
        exact hfail hno _ (by decide) d' hd' him
      · split
        · rw [wp_pure]
          exact hfail hno _ (by decide) d' hd' him
        · rw [wp_pure]
          exact hfail hno _ (by decide) d' hd' him
    · rw [if_neg (by decide), if_neg (by decide), if_neg (by decide), wp_pure]
      exact hok i k j hi hr _ d' hd'

/-- `del` fails on the way, or comes to a directory with the name that is to be unlinked. -/
theorem Serves.wp_del_walk (h : Serves g d) (s body : Bytes) {Q : Handled → Disk → Prop}
    (hfail : ∀ (ys : List Bytes) (y : Bytes), components (dropSlash s) = ys ++ [y] →
      follow (nodes g d) 0 ys < 0 ∨ y = [] → ∀ e : ClientError, e = .notFound ∨ e = .badRequest →
      Q (.error (.clientError e)) d)
    (hgo : ∀ (ys : List Bytes) (y : Bytes) (p : Nat), components (dropSlash s) = ys ++ [y] →
      follow (nodes g d) 0 ys = p → wp (delEntry p y) Q d) :
    wp (del ⟨.delete, pathPrefix ++ s, body⟩) Q d := by
  have hdrop : (if s.getLast? = some 47 then s.dropLast else s) = dropSlash s := rfl
  simp only [del, drop_pathPrefix, hdrop]
  rw [wp_bind]
  refine wp_delWalk h.idle.toHolds h.sound le_rfl le_rfl ?_
  obtain ⟨ys, y, hc⟩ := components_eq_concat (dropSlash s)
  rw [hc]
  rcases Int.lt_or_le (follow (nodes g d) 0 ys) 0 with hneg | hpos
  · rcases delTarget_concat_of_neg hneg y with he | he
    · rw [he, wp_pure]
      exact hfail ys y hc (.inl hneg) _ (.inl rfl)
    · rw [he, wp_pure]
      exact hfail ys y hc (.inl hneg) _ (.inr rfl)
  · obtain ⟨p, hp⟩ := Int.eq_ofNat_of_zero_le hpos
    rw [delTarget_concat (by omega) hp]
    dsimp only
    by_cases hy : y = []
    · rw [if_pos hy, wp_pure]
      exact hfail ys y hc (.inr hy) _ (.inr rfl)
    · rw [if_neg hy]
      exact hgo ys y p hc hp

/-- Every call of `del` returns: it removes the node that the path leads to, if that can be
removed, and else it leaves the image as it is. -/
theorem wp_del (h : Serves g d) (s body : Bytes) {Q : Handled → Disk → Prop}
    (hfail : ¬ Deletable d s → ∀ e, e.statusCode ≠ 200 → ∀ d', Idle g d' (g.volume d.image) →
      d'.image = d.image → Q (.error (.clientError e)) d')
    (hok : Deletable d s → ∀ (ys : List Bytes) (y : Bytes) (p k j : Nat),
      components (dropSlash s) = ys ++ [y] → follow ((g.volume d.image).node g) 0 ys = p →
      CanRemove g (g.volume d.image) p y k j → ∀ text d',
      Idle g d' ((g.volume d.image).removed g p k j) → Q (.ok ⟨200, text⟩) d') :
    wp (del ⟨.delete, pathPrefix ++ s, body⟩) Q d := by
  refine h.wp_del_walk s body (fun ys y hc hlost e he => ?_) fun ys y p hc hp => ?_
  · refine hfail (fun hdel => ?_) e (by rcases he with rfl | rfl <;> decide) d h.idle rfl
    obtain ⟨p, k, j, hp, hr⟩ := (h.deletable_iff hc).mp hdel
    rcases hlost with hneg | hy
    · omega
    · exact hr.name_ne hy
  · have hiff := h.deletable_iff hc
    refine wp_delEntry h.idle h.sound (fun hno e he d' hd' him => ?_)
      fun i k j hi hr text d' hd' => ?_
    · refine hfail (fun hdel => ?_) e he d' hd' him
      obtain ⟨p', k, j, hp', hr⟩ := hiff.mp hdel
      exact hno p' k j (hp.symm.trans hp') hr
    · obtain rfl : p = i := by omega
      exact hok (hiff.mpr ⟨p, k, j, hp, hr⟩) ys y p k j hc hp hr text d' hd'

/-- `DELETE` does what it should, in every state of a run that starts from a proper
layout. -/
theorem Reachable.deletesRight (h : Reachable numInodes numData d)
    (hno : Mkfs.NoOverflow numInodes numData) (s body body' : Bytes) :
    DeletesRight d s body body' := by
  obtain ⟨g, -, -, hs, -⟩ := h.serves hno
  constructor
  · intro hdel
    obtain ⟨handled, d', hrun, response, rfl, hstatus, hget⟩ := wp_del hs s body
      (Q := fun handled d' => ∃ response, handled = .ok response ∧ response.status = 200 ∧
        wp (DistributedFileSystemService.get ⟨.get, pathPrefix ++ s, body'⟩)
          (fun handled _ => handled = .error (.clientError .notFound)) d')
      (fun hnot => absurd hdel hnot)
      fun _ ys y p k j hc hp hr text d' hd' => by
        have hlost :
            follow ((Volume.removed g (g.volume d.image) p k j).node g) 0 (trimmed s) < 0 := by
          have hlive := ((hs.sound.good hr.bit).slots hr.dir).live k hr.two_le hr.lt_count
          rw [trimmed_of_dropSlash hc hr.name_ne, hr.node_eq hs.sound]
          exact follow_unlink_self hr.removable hs.sound.tree
            ⟨hr.cname ▸ hlive.ne_dot, hr.cname ▸ hlive.ne_dotdot⟩
            (hr.cname ▸ DirEnt.cStr_cname _) hp
        exact ⟨⟨200, text⟩, rfl, rfl, wp_get hd'.toHolds (hr.sound hs.sound) s body' (fun _ => rfl)
          (fun i hi _ _ => by omega) fun i hi _ _ => by omega⟩
    obtain ⟨_, d'', hrun', rfl⟩ := hget
    exact ⟨response, d', hrun, hstatus, _, d'', hrun', rfl⟩
  · intro hnot
    obtain ⟨handled, d', hrun, e, rfl, him⟩ := wp_del hs s body
      (Q := fun handled d' => ∃ e, handled = .error (.clientError e) ∧ d'.image = d.image)
      (fun _ e _ d' _ him => ⟨e, rfl, him⟩)
      fun hdel => absurd hdel hnot
    exact ⟨e, d', hrun, him⟩

theorem exists_deletesRight : ∃ d, Reachable 32 32 d ∧ Image.IsFile d.image 1 ∧
    DeletesRight d [97] [] [] := by
  obtain ⟨d, hd, -, hfile, -⟩ := exists_reachable_file
  exact ⟨d, hd, hfile, hd.deletesRight (by decide) [97] [] []⟩

/-- Where the data region overlaps the inode table, a write to a file can give the root two
entries of one name: `DELETE` removes one of them, and `GET` finds the other. -/
theorem exists_not_deletesRight : ∃ d, Reachable 33554400 32 d ∧ ¬ DeletesRight d [102] [] [] := by
  obtain ⟨d, hd, hP⟩ := exists_reachable Mkfs.mkfs_overlapping (by decide)
    [.create 0 ufsRegularFile [102], .write 1 (some (forged 1 0).get) 4096] (by decide)
    (P := returns (del ⟨.delete, pathPrefix ++ [102], []⟩) fun handled => returns
      (DistributedFileSystemService.get ⟨.get, pathPrefix ++ [102], []⟩) fun handled' _ =>
        handled.toBool && handled'.toBool) (by decide +kernel)
  obtain ⟨handled, d', hdel, hP⟩ := run_of_returns hP
  obtain ⟨handled', d'', hget, hP⟩ := run_of_returns hP
  rw [Bool.and_eq_true] at hP
  refine ⟨d, hd, fun hright => ?_⟩
  by_cases hyes : Deletable d [102]
  · obtain ⟨_, d₁, hdel', -, e, d₂, hget', -⟩ := hright.1 hyes
    rw [hdel] at hdel'
    cases hdel'
    rw [hget] at hget'
    cases hget'
    cases hP.2
  · obtain ⟨e, d₁, hdel', -⟩ := hright.2 hyes
    rw [hdel] at hdel'
    cases hdel'
    cases hP.1

end Gunrock
