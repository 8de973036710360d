import Gunrock.Paths

/-!
# `PUT`

`put` is a sequence of calls that each commit what they did.  What it does to a tree is the
relation `Puts`, over what it depends on (`Inventory`): what the inodes mean, and how many of
them and of the data blocks are free.

When a `PUT` fails after it has made something, that stays.  It depends on the state before
whether this can happen: `put` changes nothing when it fails just when the first missing
component cannot be made (`Inventory.MakesNothing`), or everything can be and the body has room
as well (`Inventory.Provides`).
-/

namespace Gunrock

open Disk LocalFileSystem DistributedFileSystemService Wp

/-! ## What `PUT` depends on -/

/-- What the inodes mean, the free ones in the order in which they are taken, and the number
of free data blocks. -/
@[ext] structure Inventory where
  node : Namespace Nat Bytes Bytes
  inodes : List Nat
  blocks : Nat
  fresh : ∀ n ∈ inodes, node n = none
  nodup : inodes.Nodup

namespace Inventory

variable (σ : Inventory) (i : Nat) (type : Int) (x : Bytes)

/-- The inode that is taken next. -/
def newInum : Nat := σ.inodes.headD 0

/-- How many entries directory `i` has, `.` and `..` included. -/
def count : Nat :=
  match σ.node i with
  | some (.dir _ es) => es.length + 2
  | _ => 0

/-- How many blocks a new entry takes: a directory has one, and the parent gets one when
its blocks are full. -/
def need : Nat := (if type = ufsDirectory then 1 else 0) + (if σ.count i % 128 = 0 then 1 else 0)

/-- Directory `i` can have a new entry `x`. -/
structure CanMake : Prop where
  dir : ∃ pp es, σ.node i = some (.dir pp es)
  count_lt : σ.count i < 3840
  name_ne : x ≠ []
  name_lt : x.length < dirEntNameSize
  inode : σ.inodes ≠ []
  room : σ.need i type ≤ σ.blocks

/-- The inventory with the new entry. -/
def make : Inventory where
  node := σ.node.link i (Buffer.cStr x) σ.newInum (newNode type i)
  inodes := σ.inodes.tail
  blocks := σ.blocks - σ.need i type
  fresh := fun n hn => by
    have hne : n ≠ σ.newInum := by
      rintro rfl
      cases hcons : σ.inodes with
      | nil =>
          rw [hcons] at hn
          cases hn
      | cons m ms =>
          have hnodup := hcons ▸ σ.nodup
          rw [newInum, hcons] at hn
          exact (List.nodup_cons.mp hnodup).1 hn
    have hnone := σ.fresh n (List.mem_of_mem_tail hn)
    by_cases hni : n = i
    · subst hni
      simp [Namespace.link, hne, hnone]
    · rw [Namespace.link_of_ne hni hne, hnone]
  nodup := σ.nodup.sublist (List.tail_sublist _)

/-- `size` bytes can be written to file `i`. -/
def CanFill (size : Nat) : Prop :=
  0 < size ∧ size ≤ maxFileSize ∧
    ∃ c, σ.node i = some (.file c) ∧ blocksFor size - blocksFor c.length ≤ σ.blocks

variable {σ i type x}

@[simp] theorem make_node :
    (σ.make i type x).node = σ.node.link i (Buffer.cStr x) σ.newInum (newNode type i) := rfl

@[simp] theorem make_inodes : (σ.make i type x).inodes = σ.inodes.tail := rfl

@[simp] theorem make_blocks : (σ.make i type x).blocks = σ.blocks - σ.need i type := rfl

theorem newInum_mem (h : σ.inodes ≠ []) : σ.newInum ∈ σ.inodes := by
  obtain ⟨n, ns, hcons⟩ := List.exists_cons_of_ne_nil h
  rw [newInum, hcons]
  exact List.mem_cons_self

theorem node_newInum (h : σ.CanMake i type x) : σ.node σ.newInum = none :=
  σ.fresh _ (newInum_mem h.inode)

theorem make_newInum : (σ.make i type x).node σ.newInum = some (newNode type i) :=
  Namespace.link_self _ _ _ _ _

end Inventory

/-! ## What `PUT` does -/

/-- The last step: the body is written to file `i`, or it is not. -/
inductive Fills (content : Bytes) (σ : Inventory) (i : Nat) : Namespace Nat Bytes Bytes → Bool → Prop
  | written : σ.CanFill i content.length → Fills content σ i (σ.node.setFile i content) true
  | refused : ¬ σ.CanFill i content.length → Fills content σ i σ.node false

/-- From inode `p` on, `PUT` follows and makes the components `xs`, and writes `content` to
the last one; it leaves a tree, and has succeeded or not. -/
inductive Puts (content : Bytes) :
    Inventory → Int → List Bytes → Namespace Nat Bytes Bytes → Bool → Prop
  | enter {σ : Inventory} {p : Int} {x : Bytes} {xs : List Bytes} {f : Namespace Nat Bytes Bytes}
      {ok : Bool} : xs ≠ [] → 0 ≤ findName σ.node p x →
      Puts content σ (findName σ.node p x) xs f ok → Puts content σ p (x :: xs) f ok
  | make {σ : Inventory} {i : Nat} {x : Bytes} {xs : List Bytes} {f : Namespace Nat Bytes Bytes}
      {ok : Bool} : xs ≠ [] → findName σ.node i x = -eNotFound → σ.CanMake i ufsDirectory x →
      Puts content (σ.make i ufsDirectory x) σ.newInum xs f ok → Puts content σ i (x :: xs) f ok
  /-- A component is not a directory, or is missing and cannot be made. -/
  | stop {σ : Inventory} {p : Int} {x : Bytes} {xs : List Bytes} : findName σ.node p x < 0 →
      (∀ i : Nat, p = i → findName σ.node p x = -eNotFound →
        ¬ σ.CanMake i (if xs = [] then ufsRegularFile else ufsDirectory) x) →
      Puts content σ p (x :: xs) σ.node false
  /-- There is nothing behind the last slash. -/
  | unnamed {σ : Inventory} {p : Int} : Puts content σ p [[]] σ.node false
  | fill {σ : Inventory} {p : Int} {x : Bytes} {j : Nat} {f : Namespace Nat Bytes Bytes} {ok : Bool} :
      x ≠ [] → findName σ.node p x = j → Fills content σ j f ok → Puts content σ p [x] f ok
  | makeFile {σ : Inventory} {i : Nat} {x : Bytes} {f : Namespace Nat Bytes Bytes} {ok : Bool} :
      findName σ.node i x = -eNotFound → σ.CanMake i ufsRegularFile x →
      Fills content (σ.make i ufsRegularFile x) σ.newInum f ok → Puts content σ i [x] f ok

/-! ## When it changes nothing -/

namespace Inventory

/-- The first component that is missing cannot be made. -/
def MakesNothing (σ : Inventory) : Int → List Bytes → Prop
  | _, [] => True
  | p, x :: xs =>
    if findName σ.node p x = -eNotFound then
      ¬ σ.CanMake p.toNat (if xs = [] then ufsRegularFile else ufsDirectory) x
    else findName σ.node p x < 0 ∨ MakesNothing σ (findName σ.node p x) xs

/-- All components that are missing can be made, and then the last one can be written. -/
def Provides (size : Nat) : Inventory → Int → List Bytes → Prop
  | _, _, [] => False
  | σ, p, [x] =>
    x ≠ [] ∧ if findName σ.node p x = -eNotFound then
      σ.CanMake p.toNat ufsRegularFile x ∧
        (σ.make p.toNat ufsRegularFile x).CanFill σ.newInum size
    else 0 ≤ findName σ.node p x ∧ σ.CanFill (findName σ.node p x).toNat size
  | σ, p, x :: y :: ys =>
    if findName σ.node p x = -eNotFound then
      σ.CanMake p.toNat ufsDirectory x ∧
        Provides size (σ.make p.toNat ufsDirectory x) σ.newInum (y :: ys)
    else 0 ≤ findName σ.node p x ∧ Provides size σ (findName σ.node p x) (y :: ys)

end Inventory

theorem Inventory.make_ne_none {σ : Inventory} {i j : Nat} {type : Int} {x : Bytes}
    (h : σ.node j ≠ none) : (σ.make i type x).node j ≠ none := by
  by_cases hj : j = σ.newInum
  · rw [hj, make_newInum]
    exact Option.some_ne_none _
  · by_cases hji : j = i
    · subst hji
      simpa [make, Namespace.link, hj] using h
    · have hold : (σ.make i type x).node j = σ.node j := Namespace.link_of_ne hji hj
      rwa [hold]

/-- No node goes away. -/
theorem Fills.ne_none {content : Bytes} {σ : Inventory} {i j : Nat} {f : Namespace Nat Bytes Bytes}
    {ok : Bool} (h : Fills content σ i f ok) (hj : σ.node j ≠ none) : f j ≠ none := by
  cases h with
  | written hfill =>
      rw [Namespace.setFile, Function.update_apply]
      split
      · exact Option.some_ne_none _
      · exact hj
  | refused hfill => exact hj

namespace Puts

variable {content : Bytes} {σ : Inventory} {p : Int} {xs : List Bytes}
  {f : Namespace Nat Bytes Bytes} {ok : Bool} {j : Nat}

theorem ne_none (h : Puts content σ p xs f ok) (hj : σ.node j ≠ none) : f j ≠ none := by
  induction h with
  | enter _ _ _ ih => exact ih hj
  | make _ _ _ _ ih => exact ih (Inventory.make_ne_none hj)
  | stop _ _ => exact hj
  | unnamed => exact hj
  | fill _ _ hfills => exact hfills.ne_none hj
  | makeFile _ _ hfills => exact hfills.ne_none (Inventory.make_ne_none hj)

/-- What is made stays. -/
theorem ne_of_make {i : Nat} {type : Int} {x : Bytes} (hmake : σ.CanMake i type x)
    (hf : f σ.newInum ≠ none) : f ≠ σ.node := by
  rintro rfl
  exact hf (Inventory.node_newInum hmake)

theorem provides (h : Puts content σ p xs f ok) (hp : σ.Provides content.length p xs) :
    ok = true := by
  induction h with
  | @enter σ p x xs f ok hne hpos _ ih =>
      obtain ⟨y, ys, rfl⟩ := List.exists_cons_of_ne_nil hne
      rw [Inventory.Provides, if_neg (not_notFound hpos)] at hp
      exact ih hp.2
  | @make σ i x xs f ok hne hnf _ _ ih =>
      obtain ⟨y, ys, rfl⟩ := List.exists_cons_of_ne_nil hne
      rw [Inventory.Provides, if_pos hnf] at hp
      exact ih hp.2
  | @stop σ p x xs hneg hno =>
      cases xs with
      | nil =>
          rw [Inventory.Provides] at hp
          split at hp
          · rename_i hnf
            obtain ⟨n, -, -, rfl, -⟩ := findName_eq_notFound.mp hnf
            exact absurd hp.2.1 (hno n rfl hnf)
          · exact absurd hp.2.1 (by omega)
      | cons y ys =>
          rw [Inventory.Provides] at hp
          split at hp
          · rename_i hnf
            obtain ⟨n, -, -, rfl, -⟩ := findName_eq_notFound.mp hnf
            exact absurd hp.1 (hno n rfl hnf)
          · exact absurd hp.1 (by omega)
  | unnamed => exact absurd rfl hp.1
  | fill _ hj hfills =>
      rw [Inventory.Provides, hj, if_neg (not_notFound (by omega))] at hp
      cases hfills with
      | written _ => rfl
      | refused hno => exact absurd hp.2.2 hno
  | makeFile hnf _ hfills =>
      rw [Inventory.Provides, if_pos hnf] at hp
      cases hfills with
      | written _ => rfl
      | refused hno => exact absurd hp.2.2 hno

theorem provides_of_ok (h : Puts content σ p xs f ok) (hok : ok = true) :
    σ.Provides content.length p xs := by
  induction h with
  | @enter σ p x xs f ok hne hpos _ ih =>
      obtain ⟨y, ys, rfl⟩ := List.exists_cons_of_ne_nil hne
      rw [Inventory.Provides, if_neg (not_notFound hpos)]
      exact ⟨hpos, ih hok⟩
  | @make σ i x xs f ok hne hnf hmake _ ih =>
      obtain ⟨y, ys, rfl⟩ := List.exists_cons_of_ne_nil hne
      rw [Inventory.Provides, if_pos hnf]
      exact ⟨hmake, ih hok⟩
  | stop _ _ => cases hok
  | unnamed => cases hok
  | fill hne hj hfills =>
      rw [Inventory.Provides, hj, if_neg (not_notFound (by omega))]
      cases hfills with
      | written hfill => exact ⟨hne, by omega, hfill⟩
      | refused _ => cases hok
  | makeFile hnf hmake hfills =>
      rw [Inventory.Provides, if_pos hnf]
      cases hfills with
      | written hfill => exact ⟨hmake.name_ne, hmake, hfill⟩
      | refused _ => cases hok

/-- When nothing can be made, nothing is. -/
theorem eq_of_makesNothing (h : Puts content σ p xs f ok) (hm : σ.MakesNothing p xs) :
    ok = true ∨ f = σ.node := by
  induction h with
  | enter _ hpos _ ih =>
      rw [Inventory.MakesNothing, if_neg (not_notFound hpos)] at hm
      exact ih (hm.resolve_left (by omega))
  | make hne hnf hmake _ _ =>
      rw [Inventory.MakesNothing, if_pos hnf, if_neg hne] at hm
      exact absurd hmake hm
  | stop _ _ => exact .inr rfl
  | unnamed => exact .inr rfl
  | fill _ _ hfills =>
      cases hfills with
      | written _ => exact .inl rfl
      | refused _ => exact .inr rfl
  | makeFile hnf hmake _ =>
      rw [Inventory.MakesNothing, if_pos hnf, if_pos rfl] at hm
      exact absurd hmake hm

/-- When it fails and nothing is made, nothing could be. -/
theorem makesNothing (h : Puts content σ p xs f ok) (hok : ok = false) (hf : f = σ.node) :
    σ.MakesNothing p xs := by
  induction h with
  | enter _ hpos _ ih =>
      rw [Inventory.MakesNothing, if_neg (not_notFound hpos)]
      exact .inr (ih hok hf)
  | make _ _ hmake hputs _ =>
      refine absurd hf (ne_of_make hmake (hputs.ne_none ?_))
      rw [Inventory.make_newInum]
      exact Option.some_ne_none _
  | stop hneg hno =>
      rw [Inventory.MakesNothing]
      split
      · rename_i hnf
        obtain ⟨n, -, -, rfl, -⟩ := findName_eq_notFound.mp hnf
        exact hno n rfl hnf
      · exact .inl hneg
  | unnamed =>
      rw [Inventory.MakesNothing]
      split
      · exact fun hmake => hmake.name_ne rfl
      · exact .inr trivial
  | fill _ hj _ =>
      rw [Inventory.MakesNothing, hj, if_neg (not_notFound (by omega))]
      exact .inr trivial
  | makeFile _ hmake hfills =>
      refine absurd hf (ne_of_make hmake (hfills.ne_none ?_))
      rw [Inventory.make_newInum]
      exact Option.some_ne_none _

/-- A `PUT` that fails has changed nothing, just when the condition holds. -/
theorem unchanged_iff (h : Puts content σ p xs f ok) :
    (ok = false → f = σ.node) ↔
      σ.MakesNothing p xs ∨ σ.Provides content.length p xs := by
  constructor
  · intro himp
    cases ok with
    | true => exact .inr (h.provides_of_ok rfl)
    | false => exact .inl (h.makesNothing rfl (himp rfl))
  · rintro (hm | hp) hfail
    · exact (h.eq_of_makesNothing hm).resolve_left (by simp [hfail])
    · rw [h.provides hp] at hfail
      cases hfail

end Puts

/-! ## The inventory of a volume -/

variable {g : Geometry} {d d' : Disk} {v : Volume} {i j : Nat} {type : Int} {x : Bytes}

def Volume.inventory (g : Geometry) (v : Volume) : Inventory where
  node := v.node g
  inodes := v.freeInodes g
  blocks := (v.freeData g).length
  fresh := fun _ hn => Volume.node_of_clear (FreeList.mem_free.mp hn).2
  nodup := FreeList.nodup_free

@[simp] theorem Volume.inventory_node (g : Geometry) (v : Volume) :
    (v.inventory g).node = v.node g := rfl

@[simp] theorem Volume.inventory_inodes (g : Geometry) (v : Volume) :
    (v.inventory g).inodes = v.freeInodes g := rfl

@[simp] theorem Volume.inventory_blocks (g : Geometry) (v : Volume) :
    (v.inventory g).blocks = (v.freeData g).length := rfl

theorem Volume.count_inventory (hb : v.inodeBit i = true) (hdir : (v.inode i).type = ufsDirectory)
    (hs : Sound g v) : (v.inventory g).count i = v.count i := by
  have hge := ((hs.good hb).slots hdir).count_ge
  have hnode : (v.inventory g).node i = _ := Volume.node_of_dir hb hdir
  rw [Inventory.count, hnode]
  simp only [Volume.entries, List.length_drop, List.length_map, List.length_range]
  omega

/-- The blocks of a directory are full when its last one is. -/
theorem Volume.full_iff (v : Volume) (hs : GoodSlots g v i) :
    v.Full i ↔ v.count i % 128 = 0 := by
  have hsize := hs.size_eq
  rw [Volume.Full, Volume.blocks, blocksFor]
  omega

theorem Volume.need_inventory (hb : v.inodeBit i = true) (hdir : (v.inode i).type = ufsDirectory)
    (hs : Sound g v) : (v.inventory g).need i type = v.need i type := by
  simp only [Inventory.need, Volume.need, count_inventory hb hdir hs,
    v.full_iff ((hs.good hb).slots hdir)]

theorem Sound.canMake_iff (hs : Sound g v) (hnf : findName (v.node g) i x = -eNotFound) :
    (v.inventory g).CanMake i type x ↔ Creates g v i type x := by
  obtain ⟨n, q, es, hn, hnode, hdot, hdotdot, hchild⟩ := findName_eq_notFound.mp hnf
  obtain rfl : i = n := by omega
  have hb := Volume.bit_of_node hnode
  have hdir := Volume.dir_of_node hnode
  have hgood := hs.good hb
  have hfull := v.full_iff (hgood.slots hdir)
  have hle := v.count_le_blocks i
  have hmax : v.blocks i ≤ 30 := hgood.blocks_le
  have hcount := Volume.count_inventory hb hdir hs
  have hneed : (v.inventory g).need i type = v.need i type := Volume.need_inventory hb hdir hs
  constructor
  · intro h
    refine ⟨⟨hb, hdir, h.inode, hneed ▸ h.room, fun hf => ?_⟩, ⟨h.name_lt, hdot, hdotdot, hchild⟩,
      h.name_ne⟩
    have hlt := h.count_lt
    rw [hcount] at hlt
    unfold Volume.Full at hf
    omega
  · intro h
    refine ⟨⟨q, es, hnode⟩, ?_, h.name_ne, h.length_lt, h.inode, hneed ▸ h.data⟩
    rw [hcount]
    by_cases hf : v.Full i
    · have hlt := h.blocks hf
      unfold Volume.Full at hf
      omega
    · unfold Volume.Full at hf
      omega

theorem Creates.inventory_eq (h : Creates g v i type x) (hs : Sound g v)
    (ht : type = ufsDirectory ∨ type = ufsRegularFile) :
    (v.created g i type x).inventory g = (v.inventory g).make i type x := by
  have hc := h.toCanCreate
  refine Inventory.ext (hc.node_eq hs ht h.toNewName) ?_ ?_
  · obtain ⟨n, ns, hcons⟩ := List.exists_cons_of_ne_nil hc.inode
    have hnew : v.newInum g = n := by rw [Volume.newInum, hcons, List.headD_cons]
    rw [Volume.inventory_inodes, Inventory.make_inodes, Volume.inventory_inodes, hcons,
      List.tail_cons, Volume.freeInodes, CanCreate.inodeBit_created, hnew]
    exact FreeList.free_take hcons
  · rw [Volume.inventory_blocks, Inventory.make_blocks, Volume.inventory_blocks,
      hc.freeData_created hs, List.length_drop, Volume.need_inventory hc.bit hc.dir hs]

theorem Sound.canFill_iff (hs : Sound g v) {size : Nat} :
    (v.inventory g).CanFill i size ↔ CanWrite g v i size := by
  constructor
  · rintro ⟨hpos, hle, c, hc, hroom⟩
    rw [Volume.inventory_node] at hc
    have hb := Volume.bit_of_node hc
    obtain ⟨ht, rfl⟩ := Volume.file_of_node hc
    refine ⟨hb, (hs.good hb).type.resolve_left ht, hpos, hle, ?_⟩
    rwa [Volume.length_content, Int.toNat_of_nonneg (hs.good hb).size_nonneg] at hroom
  · intro h
    refine ⟨h.pos, h.le, _, Volume.node_of_file h.bit h.type_ne, ?_⟩
    rw [Volume.length_content, Int.toNat_of_nonneg (hs.good h.bit).size_nonneg]
    exact h.room

/-! ## The steps of `put` -/

/-- What `PUT` finds on the disk. -/
abbrev inventory (g : Geometry) (d : Disk) : Inventory := (g.volume d.image).inventory g

variable {content : Bytes} {p : Int} {xs : List Bytes} {path : Bytes}

/-- What can be made has a name that `create` accepts. -/
theorem Inventory.CanMake.not_badName {σ : Inventory} (h : σ.CanMake i type x)
    (hnf : findName σ.node i x = -eNotFound) : ¬ BadName x := by
  obtain ⟨n, q, es, -, -, h1, h2, -⟩ := findName_eq_notFound.mp hnf
  rintro ((hnil | hlen) | rfl | rfl)
  · exact h.name_ne hnil
  · exact absurd h.name_lt (by omega)
  · exact h1 (by decide)
  · exact h2 (by decide)

/-- `create` of a name that is missing: what it returns, case by case. -/
theorem Serves.wp_make_cases (h : Serves g d) (ht : type = ufsDirectory ∨ type = ufsRegularFile)
    (hnf : findName (nodes g d) i x = -eNotFound) {Q : Int → Disk → Prop}
    (hbad : BadName x → Q (-eInvalidName) d)
    (hfull : ¬ BadName x → ¬ (inventory g d).CanMake i type x → ∀ d', Serves g d' →
      d'.image = d.image → Q (-eNotEnoughSpace) d')
    (hok : (inventory g d).CanMake i type x → ∀ d', Serves g d' →
      inventory g d' = (inventory g d).make i type x → Q (inventory g d).newInum d') :
    wp (create i type x) Q d := by
  obtain ⟨n, q, es, hn, hnode, h1, h2, h3⟩ := findName_eq_notFound.mp hnf
  obtain rfl : i = n := by omega
  have hiff : (inventory g d).CanMake i type x ↔ Creates g (g.volume d.image) i type x :=
    h.sound.canMake_iff hnf
  refine wp_create_cases h.idle h.sound (fitsInt_type ht) hbad
    (fun hno => absurd hnode (hno i rfl q es)) (fun j hj => ?_)
    (fun i' hi hgood _ hno d' hd' him => ?_) fun i' hi hc d' hd' => ?_
  · rw [hnf] at hj
    simp only [eNotFound] at hj
    omega
  · obtain rfl : i = i' := by omega
    exact hfull hgood (fun hmake => hno (hiff.mp hmake).toCanCreate) d' (h.of_image hd') him
  · obtain rfl : i = i' := by omega
    refine hok (hiff.mpr hc) d'
      (.of_idle hd' (hc.toCanCreate.sound h.sound ht hc.toNewName)) ?_
    rw [inventory, hd'.volume]
    exact hc.inventory_eq h.sound ht

theorem Serves.wp_make (h : Serves g d) (ht : type = ufsDirectory ∨ type = ufsRegularFile)
    (hnf : findName (nodes g d) i x = -eNotFound) {Q : Int → Disk → Prop}
    (hfail : ¬ (inventory g d).CanMake i type x → ∀ r < 0, ∀ d', Serves g d' →
      d'.image = d.image → Q r d')
    (hok : (inventory g d).CanMake i type x → ∀ d', Serves g d' →
      inventory g d' = (inventory g d).make i type x → Q (inventory g d).newInum d') :
    wp (create i type x) Q d := by
  refine h.wp_make_cases ht hnf (fun hbad => ?_) (fun _ hno d' hd' him => ?_) hok
  · exact hfail (fun hmake => hmake.not_badName hnf hbad) _ (by decide) d h rfl
  · exact hfail hno _ (by decide) d' hd' him

/-- What becomes of a component `x` of the path, and on which disk it goes on: it cannot be made,
it is made, it cannot be entered, or it is there. -/
inductive Enters {α : Type} (g : Geometry) (d : Disk) (type p : Int) (x : Bytes) (full bad : FS α)
    (next : Int → FS α) : FS α → Disk → Prop
  | full {d' : Disk} : findName (nodes g d) p x = -eNotFound →
      (∀ i : Nat, p = i → ¬ (inventory g d).CanMake i type x) → Serves g d' → d'.image = d.image →
      Enters g d type p x full bad next full d'
  | make {i : Nat} {d' : Disk} : p = i → findName (nodes g d) i x = -eNotFound →
      (inventory g d).CanMake i type x → Serves g d' →
      inventory g d' = (inventory g d).make i type x →
      Enters g d type p x full bad next (next (inventory g d).newInum) d'
  | bad : findName (nodes g d) p x < 0 → findName (nodes g d) p x ≠ -eNotFound →
      Enters g d type p x full bad next bad d
  | found {j : Nat} : findName (nodes g d) p x = j → Enters g d type p x full bad next (next j) d

theorem Serves.enters (h : Serves g d) (ht : type = ufsDirectory ∨ type = ufsRegularFile)
    {α : Type} (full bad : FS α) (next : Int → FS α) :
    ∃ m d', Enters g d type p x full bad next m d' ∧
      (enter type p x full bad next).run d = m.run d' := by
  by_cases hnf : findName (nodes g d) p x = -eNotFound
  · obtain ⟨i, -, -, rfl, -⟩ := findName_eq_notFound.mp hnf
    obtain ⟨r, d', hrun, hm⟩ : wp (create i type x)
        (fun r d' => Enters g d type i x full bad next (if r < 0 then full else next r) d') d := by
      refine h.wp_make ht hnf (fun hno r hr d' hd' him => ?_) fun hcan d' hd' hinv => ?_
      · rw [if_pos hr]
        refine .full hnf (fun k hk => ?_) hd' him
        obtain rfl : i = k := by omega
        exact hno
      · rw [if_neg (by omega)]
        exact .make rfl hnf hcan hd' hinv
    rw [enter, run_bind_of_ok (h.lookup_run i x), if_pos hnf, run_bind_of_ok hrun]
    exact ⟨_, d', hm, rfl⟩
  · by_cases hneg : findName (nodes g d) p x < 0
    · exact ⟨_, d, .bad hneg hnf, h.enter_bad hneg hnf⟩
    · obtain ⟨j, hj⟩ := Int.eq_ofNat_of_zero_le (Int.not_lt.mp hneg)
      refine ⟨_, d, .found hj, ?_⟩
      rw [h.enter_found (Int.not_lt.mp hneg), hj]

theorem Serves.wp_fill (h : Serves g d) (hlen : (content.length : Int) ≤ 2 ^ 31 - 4096)
    {Q : Int → Disk → Prop}
    (hfail : ¬ (inventory g d).CanFill j content.length → ∀ r < 0, ∀ d', Serves g d' →
      d'.image = d.image → Q r d')
    (hok : (inventory g d).CanFill j content.length → ∀ d', Serves g d' →
      nodes g d' = (nodes g d).setFile j content → Q content.length d') :
    wp (write j (some fun i => content.getD i 0) content.length) Q d := by
  have hiff : (inventory g d).CanFill j content.length ↔
      CanWrite g (g.volume d.image) j content.length := h.sound.canFill_iff
  refine wp_write h.idle h.sound hlen (fun r hr hno d' hd' him => ?_)
    fun i m f scratch d' hi hf hm hw _ hd' => ?_
  · exact hfail (fun hfill => hno j _ rfl rfl rfl (hiff.mp hfill)) r hr d' (h.of_image hd') him
  · cases hf
    obtain rfl : j = i := by omega
    obtain rfl : content.length = m := by omega
    refine hok (hiff.mpr hw) d' (.of_idle hd' (hw.sound h.sound)) ?_
    rw [nodes, hd'.volume, hw.node_eq h.sound, CanWrite.map_getD_range]

/-- How a request is answered that succeeded or not. -/
def Answers (ok : Bool) (handled : Handled) : Prop :=
  if ok then ∃ text, handled = .ok ⟨200, text⟩
  else ∃ e, e.statusCode ≠ 200 ∧ handled = .error (.clientError e)

/-- `PUT` has done something to the tree, and the image has changed if the tree has. -/
def PutDone (g : Geometry) (d : Disk) (content : Bytes) (p : Int) (xs : List Bytes)
    (handled : Handled) (d' : Disk) : Prop :=
  Serves g d' ∧ ∃ ok, Puts content (inventory g d) p xs (nodes g d') ok ∧ Answers ok handled ∧
    (ok = false → nodes g d' = nodes g d → d'.image = d.image)

theorem int32_length (hlen : (content.length : Int) ≤ 2 ^ 31 - 4096) :
    int32 content.length = content.length :=
  int32_of_fits (by constructor <;> omega)

/-- `putFile` from the write on. -/
theorem Serves.wp_finish (h : Serves g d) (hlen : (content.length : Int) ≤ 2 ^ 31 - 4096)
    {Q : Handled → Disk → Prop}
    (hQ : ∀ ok handled d', Serves g d' → Fills content (inventory g d) j (nodes g d') ok →
      Answers ok handled → (ok = false → d'.image = d.image) → Q handled d') :
    wp (do
      if (← write j (some fun i => content.getD i 0) (int32 content.length)) < 0 then
        return .error (.clientError .insufficientStorage)
      else
        return .ok { status := 200, body := "File created or updated successfully.".toUTF8.toList })
      Q d := by
  rw [wp_bind, int32_length hlen]
  refine h.wp_fill hlen (fun hno r hr d' hd' him => ?_) fun hfill d' hd' hnode => ?_
  · rw [if_pos hr, wp_pure]
    have hsame : nodes g d' = (inventory g d).node := by rw [nodes, him, Volume.inventory_node]
    exact hQ false _ d' hd' (hsame ▸ .refused hno) ⟨_, by decide, rfl⟩ fun _ => him
  · rw [if_neg (by omega), wp_pure]
    exact hQ true _ d' hd' (hnode ▸ .written hfill) ⟨_, rfl⟩ fun hfalse => by cases hfalse

/-- The image stays when the tree does, since a `PUT` that has made something has changed the
tree. -/
theorem PutDone.of_make {i : Nat} {ok : Bool} {handled : Handled}
    (hmake : (inventory g d).CanMake i type x) (hs : Serves g d')
    (hputs : Puts content (inventory g d) p xs (nodes g d') ok)
    (hne : ((inventory g d).make i type x).node (inventory g d).newInum ≠ none →
      nodes g d' (inventory g d).newInum ≠ none) (ha : Answers ok handled) :
    PutDone g d content p xs handled d' := by
  refine ⟨hs, ok, hputs, ha, fun _ hsame => absurd hsame (Puts.ne_of_make hmake (hne ?_))⟩
  rw [Inventory.make_newInum]
  exact Option.some_ne_none _

/-- A component that is not there and cannot be made, or cannot be entered. -/
theorem PutDone.of_stop {type : Int} {xs : List Bytes} {handled : Handled} (hs : Serves g d')
    (him : d'.image = d.image) (hneg : findName (nodes g d) p x < 0)
    (htype : type = if xs = [] then ufsRegularFile else ufsDirectory)
    (hno : ∀ i : Nat, p = i → findName (nodes g d) p x = -eNotFound →
      ¬ (inventory g d).CanMake i type x) (ha : Answers false handled) :
    PutDone g d content p (x :: xs) handled d' := by
  subst htype
  have hsame : nodes g d' = (inventory g d).node := by rw [nodes, him, Volume.inventory_node]
  exact ⟨hs, false, hsame ▸ .stop hneg hno, ha, fun _ _ => him⟩

theorem Serves.wp_putFile (h : Serves g d) (hlen : (content.length : Int) ≤ 2 ^ 31 - 4096)
    (hx : x ≠ []) : wp (putFile p x content) (PutDone g d content p [x]) d := by
  rw [putFile, openFile_eq, wp_bind]
  obtain ⟨m, d', hm, hrun⟩ := h.enters (.inr rfl) (p := p) (x := x) _ _ _
  rw [wp_congr_run hrun]
  cases hm with
  | full hnf hno hd' him =>
      rw [wp_pure, wp_pure]
      refine .of_stop hd' him ?_ rfl (fun i hi _ => hno i hi) ⟨_, by decide, rfl⟩
      rw [hnf]
      decide
  | make hi hnf hmake hd₁ hinv =>
      subst hi
      rw [wp_pure]
      refine hd₁.wp_finish hlen fun ok handled d' hd' hfills ha _ => ?_
      rw [hinv] at hfills
      exact .of_make hmake hd' (.makeFile hnf hmake hfills) hfills.ne_none ha
  | bad hneg hnf =>
      rw [wp_pure, wp_pure]
      exact .of_stop h rfl hneg rfl (fun _ _ hnf' => absurd hnf' hnf) ⟨_, by decide, rfl⟩
  | found hj =>
      rw [wp_pure]
      refine h.wp_finish hlen fun ok handled d' hd' hfills ha him => ?_
      exact ⟨hd', ok, .fill hx hj hfills, ha, fun hok _ => him hok⟩

theorem Serves.wp_putEnd (h : Serves g d) (hlen : (content.length : Int) ≤ 2 ^ 31 - 4096) :
    wp (putEnd content (.ok (p, path))) (PutDone g d content p [path]) d := by
  rw [putEnd]
  by_cases hnil : path = []
  · rw [if_pos hnil, wp_pure, hnil]
    exact ⟨h, false, .unnamed, ⟨_, by decide, rfl⟩, fun _ _ => rfl⟩
  · rw [if_neg hnil]
    exact h.wp_putFile hlen hnil

/-- `put` from its loop on. -/
theorem Serves.wp_putAlong (h : Serves g d) (hlen : (content.length : Int) ≤ 2 ^ 31 - 4096)
    {xs : List Bytes} (hxs : xs ≠ []) : wp (putAlong p xs) (fun out d₁ =>
      wp (putEnd content out) (PutDone g d content p xs) d₁) d := by
  induction xs generalizing d p with
  | nil => exact absurd rfl hxs
  | cons x xs ih =>
      by_cases hne : xs = []
      · rw [hne, putAlong, wp_pure]
        exact h.wp_putEnd hlen
      · rw [putAlong_cons p x hne]
        obtain ⟨m, d', hm, hrun⟩ := h.enters (.inl rfl) (p := p) (x := x) _ _ _
        rw [wp_congr_run hrun]
        have htype : ufsDirectory = if xs = [] then ufsRegularFile else ufsDirectory :=
          (if_neg hne).symm
        cases hm with
        | full hnf hno hd' him =>
            rw [wp_pure, putEnd, wp_pure]
            refine .of_stop hd' him ?_ htype (fun i hi _ => hno i hi) ⟨_, by decide, rfl⟩
            rw [hnf]
            decide
        | make hi hnf hmake hd₁ hinv =>
            subst hi
            refine wp_mono (ih hd₁ hne) fun out d₂ hw => wp_mono hw fun handled d' hdone => ?_
            obtain ⟨hd', ok, hputs, ha, -⟩ := hdone
            rw [hinv] at hputs
            exact .of_make hmake hd' (.make hne hnf hmake hputs) hputs.ne_none ha
        | bad hneg hnf =>
            rw [wp_pure, putEnd, wp_pure]
            exact .of_stop h rfl hneg htype (fun _ _ hnf' => absurd hnf' hnf) ⟨_, by decide, rfl⟩
        | @found j hj =>
            refine wp_mono (ih h hne) fun out d₂ hw => wp_mono hw fun handled d' hdone => ?_
            obtain ⟨hd', ok, hputs, ha, him⟩ := hdone
            rw [← hj] at hputs
            exact ⟨hd', ok, .enter hne (by rw [Volume.inventory_node, hj]; omega) hputs, ha, him⟩

/-- Every call of `put` returns. -/
theorem Serves.wp_put (h : Serves g d) (hlen : (content.length : Int) ≤ 2 ^ 31 - 4096) (s : Bytes) :
    wp (put ⟨.put, pathPrefix ++ s, content⟩) (PutDone g d content 0 (components s)) d := by
  rw [put_eq, wp_bind]
  exact h.wp_putAlong hlen (components_ne_nil s)

/-! ## On the image -/

namespace Image

variable (im : Nat → Block)

/-- What inode `i` is, if it is allocated. -/
def node : Namespace Nat Bytes Bytes := fun i =>
  if Allocated im i then
    if (inode im i).type = ufsDirectory then
      some (.dir (slot im i 1).inum.toNat
        (((List.range (count im i)).map fun k =>
          ((slot im i k).cname, (slot im i k).inum.toNat)).drop 2))
    else some (.file (Image.content im i))
  else none

/-- The tree of an image, and what is free in it. -/
def inventory : Inventory where
  node := node im
  inodes := FreeList.free (inodeBit im) (super im).numInodes.toNat
  blocks := (FreeList.free (dataBit im) (super im).numData.toNat).length
  fresh := fun _ hn => if_neg fun h =>
    Bool.false_ne_true ((FreeList.mem_free.mp hn).2.symm.trans h.2)
  nodup := FreeList.nodup_free

@[simp] theorem inventory_node : (inventory im).node = node im := rfl

@[simp] theorem inventory_inodes :
    (inventory im).inodes = FreeList.free (inodeBit im) (super im).numInodes.toNat := rfl

@[simp] theorem inventory_blocks :
    (inventory im).blocks = (FreeList.free (dataBit im) (super im).numData.toNat).length := rfl

end Image

namespace Serves

theorem node_eq (h : Serves g d) : Image.node d.image = nodes g d := by
  funext i
  have halloc := h.allocated (i := i)
  rw [Image.node, nodes, Volume.node]
  by_cases hb : (g.volume d.image).inodeBit i = true
  · rw [if_pos (halloc.mpr hb), if_pos hb, h.inode_eq hb]
    by_cases hdir : ((g.volume d.image).inode i).type = ufsDirectory
    · have hle := (g.volume d.image).count_le_blocks i
      have hge := ((h.sound.good hb).slots hdir).count_ge
      rw [if_pos hdir, if_pos hdir, h.count_eq hb, h.slot_eq hb (by omega), Volume.entries]
      congr 3
      refine List.map_congr_left fun k hk => ?_
      have hk := List.mem_range.mp hk
      rw [h.slot_eq hb (by omega)]
    · rw [if_neg hdir, if_neg hdir, h.content_eq hb]
  · rw [if_neg (halloc.not.mpr hb), if_neg hb]

theorem inventory_eq (h : Serves g d) : Image.inventory d.image = inventory g d :=
  Inventory.ext h.node_eq h.freeInodes_eq (congrArg List.length h.freeData_eq)

end Serves

/-- If a `PUT` to the path `s` fails, the image is what it was. -/
def PutUnchanged (d : Disk) (s content : Bytes) : Prop :=
  ∀ e d', (put ⟨.put, pathPrefix ++ s, content⟩).run d = .ok (.error (.clientError e), d') →
    d'.image = d.image

/-- A `PUT` changes nothing when it fails, just when it makes nothing or does not fail, in
every state of a run that starts from a proper layout. -/
theorem Reachable.put_unchanged_iff {numInodes numData : Int} (h : Reachable numInodes numData d)
    (hno : Mkfs.NoOverflow numInodes numData) (s content : Bytes)
    (hlen : (content.length : Int) ≤ 2 ^ 31 - 4096) :
    PutUnchanged d s content ↔ (Image.inventory d.image).MakesNothing 0 (components s) ∨
      (Image.inventory d.image).Provides content.length 0 (components s) := by
  obtain ⟨g, -, -, hs, -⟩ := h.serves hno
  obtain ⟨handled, d', hrun, -, ok, hputs, ha, him⟩ := hs.wp_put hlen s
  rw [hs.inventory_eq, ← hputs.unchanged_iff]
  constructor
  · rintro hun rfl
    obtain ⟨e, -, rfl⟩ := ha
    rw [nodes, hun e d' hrun, Volume.inventory_node]
  · intro hsame e d'' hrun'
    rw [hrun] at hrun'
    cases hrun'
    cases ok with
    | true =>
        obtain ⟨text, htext⟩ := ha
        cases htext
    | false => exact him rfl (hsame rfl)

theorem exists_put_unchanged_iff : ∃ d, Reachable 32 32 d ∧ (PutUnchanged d [97] [] ↔
    (Image.inventory d.image).MakesNothing 0 (components [97]) ∨
      (Image.inventory d.image).Provides 0 0 (components [97])) := by
  obtain ⟨d, hd, -⟩ := exists_reachable_file
  exact ⟨d, hd, hd.put_unchanged_iff (by decide) [97] [] (by decide)⟩

/-- A `PUT` with an empty body fails, and leaves an empty file behind. -/
theorem exists_not_putUnchanged : ∃ d, Reachable 32 32 d ∧ ¬ PutUnchanged d [97] [] := by
  obtain ⟨d, hd, hP⟩ := exists_reachable Mkfs.mkfs_ordinary (by decide) [] (by simp)
    (P := fun d => returns (put ⟨.put, pathPrefix ++ [97], []⟩) (fun handled d' =>
      decide (handled = .error (.clientError .insufficientStorage)) &&
        (!Image.inodeBit d.image 1 && Image.inodeBit d'.image 1)) d) (by decide +kernel)
  refine ⟨d, hd, fun hun => ?_⟩
  obtain ⟨handled, d', hput, hP⟩ := run_of_returns hP
  rw [Bool.and_eq_true, decide_eq_true_eq] at hP
  obtain ⟨rfl, hP⟩ := hP
  rw [hun _ d' hput] at hP
  simp at hP

end Gunrock
