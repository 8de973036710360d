import Gunrock.Atomicity
import Gunrock.Creating
import Gunrock.Formatted
import Gunrock.Unlinking
import Gunrock.Writing

/-!
# Runs

The states that the file system can be in: an image made by `mkfs` is opened, and then
files and directories are created, written and unlinked, successfully or not.

Every such state is sound (`Reachable.serves`).  The induction is over the run; what one
call does to a sound volume is in the files imported here, and is put together in
`Serves.wp_mutation`.
-/

namespace Gunrock

open Disk LocalFileSystem Wp

/-! ## Reachable states -/

/-- The disk of a server that starts on an image made by `mkfs`, of fewer than `2 ^ 31`
bytes. -/
def Boots (numInodes numData : Int) (d : Disk) : Prop :=
  ∃ itable parent f, Mkfs.mkfs numInodes numData itable parent = some f ∧ f.size < 2 ^ 31 ∧
    Disk.new f.size f.block = some d

namespace LocalFileSystem.Mutation

/-- The calls made in a run: types are `0` or `1`, names of new entries are C strings, and
sizes stay clear of the end of an `int` by one block. -/
def Admissible : Mutation → Prop
  | create _ type name => (type = ufsDirectory ∨ type = ufsRegularFile) ∧ (0 : UInt8) ∉ name
  | write _ _ size => size ≤ 2 ^ 31 - 4096
  | unlink _ _ => True

instance : (op : Mutation) → Decidable op.Admissible
  | create _ type name =>
      inferInstanceAs (Decidable ((type = ufsDirectory ∨ type = ufsRegularFile) ∧ (0 : UInt8) ∉ name))
  | write _ _ size => inferInstanceAs (Decidable (size ≤ 2 ^ 31 - 4096))
  | unlink _ _ => inferInstanceAs (Decidable True)

end LocalFileSystem.Mutation

/-- The states of a run. -/
inductive Reachable (numInodes numData : Int) : Disk → Prop
  | boot {d : Disk} : Boots numInodes numData d → Reachable numInodes numData d
  | call {d d' : Disk} {op : Mutation} {r : Int} : Reachable numInodes numData d →
      op.Admissible → op.run d = .ok (r, d') → Reachable numInodes numData d'

/-! ## Runs that can be evaluated -/

/-- The disk after some calls, if they all return. -/
def after : List Mutation → Disk → Option Disk
  | [], d => some d
  | op :: ops, d => match op.run d with
    | .ok (_, d') => after ops d'
    | .error _ => none

theorem Reachable.after {numInodes numData : Int} {ops : List Mutation} {d d' : Disk}
    (h : Reachable numInodes numData d) (hops : ∀ op ∈ ops, op.Admissible)
    (hrun : Gunrock.after ops d = some d') : Reachable numInodes numData d' := by
  induction ops generalizing d with
  | nil =>
      cases hrun
      exact h
  | cons op ops ih =>
      rw [Gunrock.after] at hrun
      split at hrun
      · rename_i r d₁ hop
        exact ih (h.call (hops op List.mem_cons_self) hop)
          (fun o ho => hops o (List.mem_cons_of_mem _ ho)) hrun
      · cases hrun

/-- A property of the first state. -/
theorem exists_boots {numInodes numData : Int} {itable parent : Block} {f : ImageFile}
    (hf : Mkfs.mkfs numInodes numData itable parent = some f) (hsize : f.size < 2 ^ 31)
    {P : Disk → Bool} (h : (Disk.new f.size f.block).any P = true) :
    ∃ d, Boots numInodes numData d ∧ P d = true := by
  obtain ⟨d, hd, hP⟩ := (Option.any_eq_true _ _).mp h
  exact ⟨d, ⟨itable, parent, f, hf, hsize, hd⟩, hP⟩

/-- A property of a reachable state, found by running the calls. -/
theorem exists_reachable {numInodes numData : Int} {itable parent : Block} {f : ImageFile}
    (hf : Mkfs.mkfs numInodes numData itable parent = some f) (hsize : f.size < 2 ^ 31)
    (ops : List Mutation) (hops : ∀ op ∈ ops, op.Admissible) {P : Disk → Bool}
    (h : (Disk.new f.size f.block).any (fun d => (after ops d).any P) = true) :
    ∃ d, Reachable numInodes numData d ∧ P d = true := by
  obtain ⟨d₀, h₀, hrun⟩ := exists_boots hf hsize h
  obtain ⟨d, hd, hP⟩ := (Option.any_eq_true _ _).mp hrun
  exact ⟨d, (Reachable.boot h₀).after hops hd, hP⟩

/-- A block that reads as a root directory with two entries `f`.  Written to a file it does
no harm, unless the file's block is the root's. -/
def forged (n m : Int) : Block := Block.ofEntries fun
  | 0 => ⟨Buffer.zero.strcpy dot, 0⟩
  | 1 => ⟨Buffer.zero.strcpy dotdot, 0⟩
  | 2 => ⟨Buffer.zero.strcpy [102], n⟩
  | 3 => ⟨Buffer.zero.strcpy [102], m⟩
  | _ => ⟨Buffer.zero, -1⟩

/-! ## The invariant -/

/-- The disk is at rest and holds a sound volume. -/
structure Serves (g : Geometry) (d : Disk) : Prop where
  idle : Idle g d (g.volume d.image)
  sound : Sound g (g.volume d.image)

/-- What the inodes of the disk mean. -/
abbrev nodes (g : Geometry) (d : Disk) : Namespace Nat Bytes Bytes := (g.volume d.image).node g

variable {g : Geometry} {d d' : Disk} {v : Volume} {numInodes numData : Int}

theorem Serves.of_idle (h : Idle g d v) (hs : Sound g v) : Serves g d := by
  obtain rfl := h.volume
  exact ⟨h, hs⟩

theorem Boots.serves (h : Boots numInodes numData d) (hno : Mkfs.NoOverflow numInodes numData) :
    ∃ g : Geometry, (g.numInodes : Int) = numInodes ∧ (g.numData : Int) = numData ∧ Serves g d ∧
      ∀ i x j, ¬ (nodes g d).Entry i x j := by
  obtain ⟨itable, parent, f, hf, hsize, hd⟩ := h
  obtain ⟨g, hi, hk, hbytes, hblock⟩ := Mkfs.mkfs_eq_some hf hno hsize
  rw [hbytes, g.new_eq_some, Option.some.injEq] at hd
  have himage : d.image = g.freshImage itable parent := by
    rw [← hd]
    exact hblock
  have hblocks : d.numberOfBlocks = g.totalBlocks := by
    rw [← hd]
    exact g.numberOfBlocks_bootDisk _
  refine ⟨g, hi, hk, ⟨⟨⟨hblocks, ?_, rfl, ?_⟩, ?_⟩, ?_⟩, fun i x j => ?_⟩
  · rw [himage]
    exact Geometry.super_freshImage
  · rw [← hd]
    exact fun b hb => absurd hb List.not_mem_nil
  · rw [← hd]
    exact ⟨rfl, rfl⟩
  · rw [himage]
    exact Geometry.sound_fresh
  · rw [nodes, himage]
    exact Geometry.not_entry_fresh

/-! ## Steps -/

/-- What a call that did not change the volume leaves behind. -/
theorem Serves.of_image (h : Serves g d) (hi : Idle g d' (g.volume d.image)) : Serves g d' :=
  .of_idle hi h.sound

/-- The two things a mutation can do: fail, or change the tree of nodes in one place. -/
inductive Mutates (g : Geometry) (d : Disk) : Mutation → Int → Disk → Prop
  | fail {op : Mutation} {r : Int} {d' : Disk} : r < 0 → d'.image = d.image → Mutates g d op r d'
  /-- `create` finds what it was asked to make. -/
  | found {p type : Int} {name : Bytes} {j : Nat} :
      findName (nodes g d) p name = j → Mutates g d (.create p type name) j d
  | create {i n : Nat} {type : Int} {name : Bytes} {d' : Disk} :
      Creates g (g.volume d.image) i type name → nodes g d n = none →
      nodes g d' = (nodes g d).link i (Buffer.cStr name) n (newNode type i) →
      Mutates g d (.create i type name) n d'
  | write {i size : Nat} {f : Nat → UInt8} {d' : Disk} :
      CanWrite g (g.volume d.image) i size →
      nodes g d' = (nodes g d).setFile i ((List.range size).map f) →
      Mutates g d (.write i (some f) size) size d'
  | unlink {i j : Nat} {name : Bytes} {d' : Disk} :
      (nodes g d).Removable i name j →
      nodes g d' = (nodes g d).unlink i name j → Mutates g d (.unlink i name) 0 d'

/-- One call of a run. -/
theorem Serves.wp_mutation (h : Serves g d) {op : Mutation} (hop : op.Admissible) :
    wp op.run (fun r d' => Serves g d' ∧ Mutates g d op r d') d := by
  have hs := h.sound
  cases op with
  | create p type name =>
      refine wp_create h.idle hs (fitsInt_type hop.1) (fun r hr _ d' hd' him => ?_)
        (fun j hj _ => ?_) fun i hi hc d' hd' => ?_
      · exact ⟨h.of_image hd', .fail hr him⟩
      · exact ⟨h, .found hj⟩
      · subst hi
        refine ⟨.of_idle hd' (hc.toCanCreate.sound hs hop.1 hc.toNewName),
          .create hc (Volume.node_of_clear (newInum_free hc.inode).2) ?_⟩
        rw [nodes, hd'.volume]
        exact hc.toCanCreate.node_eq hs hop.1 hc.toNewName
  | write n buf size =>
      refine wp_write h.idle hs hop (fun r hr _ d' hd' him => ?_)
        fun i m f scratch d' hi hf hm hw _ hd' => ?_
      · exact ⟨h.of_image hd', .fail hr him⟩
      · subst hi hf hm
        refine ⟨.of_idle hd' (hw.sound hs), .write hw ?_⟩
        rw [nodes, hd'.volume]
        exact hw.node_eq hs
  | unlink p name =>
      refine wp_unlink h.idle hs (fun r hr _ d' hd' him => ?_) fun i k j hi hr d' hd' => ?_
      · exact ⟨h.of_image hd', .fail hr him⟩
      · subst hi
        refine ⟨.of_idle hd' (hr.sound hs), .unlink hr.removable ?_⟩
        rw [nodes, hd'.volume]
        exact hr.node_eq hs

/-! ## Runs -/

/-- Names stay non-empty: `create` refuses an empty name, and a C string that is not empty is
stored as such. -/
theorem Mutates.names_ne {op : Mutation} {r : Int} (hop : op.Admissible) (hs : Serves g d)
    (hm : Mutates g d op r d') (hne : ∀ i x j, (nodes g d).Entry i x j → x ≠ []) :
    ∀ i x j, (nodes g d').Entry i x j → x ≠ [] := by
  intro i x j he
  cases hm with
  | fail hr him =>
      rw [nodes, him] at he
      exact hne i x j he
  | found hj => exact hne i x j he
  | create hc hclear hnode =>
      rw [hnode, Namespace.entry_link (Volume.node_of_dir hc.bit hc.dir) hclear
        (isLeaf_newNode _ _)] at he
      rcases he with he | ⟨-, rfl, -⟩
      · exact hne i x j he
      · rw [Buffer.cStr_of_notMem hop.2]
        exact hc.name_ne
  | write hw hnode =>
      rw [hnode, Namespace.entry_setFile (Volume.node_of_file hw.bit hw.type_ne)] at he
      exact hne i x j he
  | unlink hr hnode =>
      rw [hnode, hr.entry_unlink hs.sound.tree] at he
      exact hne i x j he.1

/-- Every state of a run is sound, and no name in it is empty. -/
theorem Reachable.serves (h : Reachable numInodes numData d)
    (hno : Mkfs.NoOverflow numInodes numData) :
    ∃ g : Geometry, (g.numInodes : Int) = numInodes ∧ (g.numData : Int) = numData ∧ Serves g d ∧
      ∀ i x j, (nodes g d).Entry i x j → x ≠ [] := by
  induction h with
  | boot hb =>
      obtain ⟨g, hi, hk, hs, hempty⟩ := hb.serves hno
      exact ⟨g, hi, hk, hs, fun i x j he => absurd he (hempty i x j)⟩
  | call _ hop hrun ih =>
      obtain ⟨g, hi, hk, hs, hne⟩ := ih
      obtain ⟨hs', hm⟩ := wlp_of_wp (hs.wp_mutation hop) _ _ hrun
      exact ⟨g, hi, hk, hs', hm.names_ne hop hs hne⟩

end Gunrock
