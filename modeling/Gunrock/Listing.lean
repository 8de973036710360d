import Gunrock.HTTP
import Gunrock.Statuses

/-!
# The order of listings

`get` lists a directory slot by slot.  A new entry goes behind the others and removing one moves
up those behind it, so the slots keep the order in which the entries were made, and a listing
is sorted just when every entry was made after those with smaller names
(`Inventory.Ascends`).

The runs here are those of `PUT` and `DELETE` requests, whose paths are made of the characters
that the parser lets through.
-/

namespace Gunrock

open Disk LocalFileSystem DistributedFileSystemService Wp

/-! ## Names -/

/-- The component has no byte that means something elsewhere: to a C string, in a listing, or
in a path. -/
structure Clean (x : Bytes) : Prop where
  nul : (0 : UInt8) ∉ x
  newline : (10 : UInt8) ∉ x
  slash : (47 : UInt8) ∉ x

/-- The name of an entry, as it can be listed and be asked for. -/
structure Listable (x : Bytes) : Prop extends Plain x, Clean x

/-- All entries have such names. -/
def Named (f : Namespace Nat Bytes Bytes) : Prop := ∀ i x j, f.Entry i x j → Listable x

variable {s x : Bytes} {xs : List Bytes}

/-- A component has no slash, and only bytes of the path. -/
theorem mem_components (hx : x ∈ components s) : (47 : UInt8) ∉ x ∧ ∀ c ∈ x, c ∈ s := by
  induction s generalizing x with
  | nil =>
      obtain rfl : x = [] := by simpa [components] using hx
      simp
  | cons b s ih =>
      rw [components, List.splitOn_cons_eq_if_modifyHead] at hx
      by_cases hb : b = 47
      · rw [if_pos (by simpa using hb)] at hx
        rcases List.mem_cons.mp hx with rfl | hx
        · simp
        · obtain ⟨hslash, hmem⟩ := ih hx
          exact ⟨hslash, fun c hc => List.mem_cons_of_mem _ (hmem c hc)⟩
      · obtain ⟨y, ys, hys⟩ := List.exists_cons_of_ne_nil (components_ne_nil s)
        rw [if_neg (by simpa using hb), ← components, hys, List.modifyHead_cons] at hx
        rcases List.mem_cons.mp hx with rfl | hx
        · obtain ⟨hslash, hmem⟩ := ih (x := y) (by simp [hys])
          refine ⟨fun h => ?_, fun c hc => ?_⟩
          · rcases List.mem_cons.mp h with rfl | h
            · exact hb rfl
            · exact hslash h
          · rcases List.mem_cons.mp hc with rfl | hc
            · exact List.mem_cons_self
            · exact List.mem_cons_of_mem _ (hmem c hc)
        · obtain ⟨hslash, hmem⟩ := ih (x := x) (by simp [hys, hx])
          exact ⟨hslash, fun c hc => List.mem_cons_of_mem _ (hmem c hc)⟩

/-- A path made of listable names. -/
theorem trimmed_intercalate (hxs : ∀ x ∈ xs, Listable x) :
    trimmed ([47].intercalate xs) = xs := by
  cases xs with
  | nil => rfl
  | cons x xs =>
      have hcomp : components ([47].intercalate (x :: xs)) = x :: xs :=
        List.splitOn_intercalate 47 (fun y hy => (hxs y hy).slash) (List.cons_ne_nil x xs)
      rw [trimmed, hcomp, if_neg]
      intro hlast
      exact (hxs [] (List.mem_of_getLast? hlast)).ne rfl

theorem dropSlash_concat (x : Bytes) : dropSlash (x ++ [47]) = x := by
  rw [dropSlash, if_pos List.getLast?_concat, List.dropLast_concat]

theorem Listable.dropSlash_eq (hx : Listable x) : dropSlash x = x := by
  rw [dropSlash, if_neg]
  exact fun hlast => hx.slash (List.mem_of_getLast? hlast)

/-! ## Listings -/

/-- The names in a listing, where a slash marks a directory. -/
def listedNames (text : Bytes) : List Bytes := (lines text).map dropSlash

/-- `GET` of the path `s` answers with this text. -/
def Lists (d : Disk) (s text : Bytes) : Prop :=
  ∀ body, ∃ d', (DistributedFileSystemService.get ⟨.get, pathPrefix ++ s, body⟩).run d =
    .ok (.ok { status := 200, body := text }, d')

/-- `GET` of a directory lists its names in ascending order, whatever the path to it. -/
def ListsInOrder (d : Disk) : Prop := ∀ (s : Bytes) (i : Nat), Resolves d 0 (trimmed s) i →
  Image.IsDirectory d.image i → ∃ text, Lists d s text ∧ (listedNames text).Pairwise (· ≤ ·)

variable {g : Geometry} {d d' : Disk} {v : Volume} {i j : Nat}

theorem Lists.eq {text text' : Bytes} (h : Lists d s text) (h' : Lists d s text') :
    text = text' := by
  obtain ⟨_, hrun⟩ := h []
  obtain ⟨_, hrun'⟩ := h' []
  rw [hrun] at hrun'
  cases hrun'
  rfl

/-- The names listed are those of the directory's entries. -/
theorem Volume.map_listed (hs : GoodSlots g v i) :
    (v.listed g i 0 (v.count i)).map DirEnt.cname = ((v.entries g i).drop 2).map Prod.fst := by
  have hge := hs.count_ge
  have hrange : List.range' 0 (v.count i) = 0 :: 1 :: List.range' 2 (v.count i - 2) := by
    obtain ⟨n, hn⟩ := Nat.exists_eq_add_of_le' hge
    rw [hn, List.range'_succ, List.range'_succ, Nat.add_sub_cancel]
  have h0 : ¬ Listed (v.entry g i 0) := fun h => h.2.1 hs.self.1
  have h1 : ¬ Listed (v.entry g i 1) := fun h => h.2.2 hs.parent.1
  have hrest : ((List.range' 2 (v.count i - 2)).map (v.entry g i)).filter Listed =
      (List.range' 2 (v.count i - 2)).map (v.entry g i) := by
    rw [List.filter_eq_self]
    intro e he
    obtain ⟨k, hk, rfl⟩ := List.mem_map.mp he
    have hk := List.mem_range'_1.mp hk
    have hlive := hs.live k hk.1 (by omega)
    have hnonneg := hlive.inum_nonneg
    exact decide_eq_true ⟨by omega, hlive.ne_dot, hlive.ne_dotdot⟩
  rw [Volume.listed, hrange, List.map_cons, List.map_cons,
    List.filter_cons_of_neg (by simpa using h0), List.filter_cons_of_neg (by simpa using h1), hrest,
    Volume.drop_entries, List.map_map, List.map_map]
  rfl

theorem Volume.listed_listable (hs : GoodSlots g v i)
    (hn : ∀ x ∈ ((v.entries g i).drop 2).map Prod.fst, Listable x) {e : DirEnt}
    (he : e ∈ v.listed g i 0 (v.count i)) : Listable e.cname := by
  refine hn _ ?_
  rw [← Volume.map_listed hs]
  exact List.mem_map_of_mem he

theorem Listable.dropSlash_line {e : DirEnt} (he : Listable e.cname) :
    dropSlash (v.line e) = e.cname := by
  rw [Volume.line]
  split
  · exact dropSlash_concat _
  · exact he.dropSlash_eq

theorem Listable.newline_line {e : DirEnt} (he : Listable e.cname) : (10 : UInt8) ∉ v.line e := by
  rw [Volume.line]
  split
  · simpa using he.newline
  · exact he.newline

/-- What `GET` answers for the path of a directory: a line for each entry. -/
theorem Serves.lists (h : Serves g d) (hn : Named (nodes g d)) {p : Nat} {es : List (Bytes × Nat)}
    (hi : follow (nodes g d) 0 (trimmed s) = i) (hes : nodes g d i = some (.dir p es)) :
    ∃ ls : List Bytes, Lists d s (ls.flatMap (· ++ [10])) ∧ (∀ l ∈ ls, (10 : UInt8) ∉ l) ∧
      ls.map dropSlash = es.map Prod.fst := by
  have hb := Volume.bit_of_node hes
  have hdir := Volume.dir_of_node hes
  have hslots := (h.sound.good hb).slots hdir
  have hentries : es = ((g.volume d.image).entries g i).drop 2 := by
    rw [nodes, Volume.node_of_dir hb hdir] at hes
    cases hes
    rfl
  have hlistable : ∀ e ∈ (g.volume d.image).listed g i 0 ((g.volume d.image).count i),
      Listable e.cname := fun e he => by
    refine Volume.listed_listable hslots (fun x hx => ?_) he
    obtain ⟨⟨y, j⟩, hmem, rfl⟩ := List.mem_map.mp hx
    exact hn i y j ⟨p, es, hes, hentries ▸ hmem⟩
  refine ⟨((g.volume d.image).listed g i 0 ((g.volume d.image).count i)).map
    (g.volume d.image).line, fun body => ?_, fun l hl => ?_, ?_⟩
  · rw [List.flatMap_map]
    obtain ⟨handled, d', hrun, rfl⟩ := wp_get h.idle.toHolds h.sound s body
      (Q := fun handled _ => handled = .ok (HTTPResponse.mk 200
        (((g.volume d.image).listed g i 0 ((g.volume d.image).count i)).flatMap fun e =>
          (g.volume d.image).line e ++ [10])))
      (fun hneg => by
        rw [nodes] at hi
        omega)
      (fun j hj _ hfile => by
        obtain rfl : i = j := by
          rw [nodes] at hi
          omega
        exact absurd hdir hfile)
      fun j hj _ _ => by
        obtain rfl : i = j := by
          rw [nodes] at hi
          omega
        rfl
    exact ⟨d', hrun⟩
  · obtain ⟨e, he, rfl⟩ := List.mem_map.mp hl
    exact (hlistable e he).newline_line
  · rw [List.map_map, hentries, ← Volume.map_listed hslots]
    exact List.map_congr_left fun e he => (hlistable e he).dropSlash_line

/-- A path leads to each node. -/
theorem Serves.exists_path (h : Serves g d) (hn : Named (nodes g d)) {n : Node Nat Bytes Bytes}
    (hi : nodes g d i = some n) : ∃ s, follow (nodes g d) 0 (trimmed s) = i := by
  obtain ⟨xs, hwalk, hentries⟩ := h.sound.tree.exists_walk hi
  have hxs : ∀ x ∈ xs, Listable x := fun x hx => by
    obtain ⟨k, l, he⟩ := hentries x hx
    exact hn k x l he
  refine ⟨[47].intercalate xs, ?_⟩
  rw [trimmed_intercalate hxs]
  exact (follow_iff_walk fun x hx => (hxs x hx).toPlain).mpr hwalk

/-- Listings are sorted where the entries are. -/
theorem Serves.listsInOrder_iff (h : Serves g d) (hn : Named (nodes g d)) :
    ListsInOrder d ↔ (nodes g d).Ordered (· ≤ ·) := by
  constructor
  · intro hlists i p es hi
    obtain ⟨s, hs⟩ := h.exists_path hn hi
    have hdir : Image.IsDirectory d.image i :=
      h.isDirectory.mpr ⟨Volume.bit_of_node hi, Volume.dir_of_node hi⟩
    obtain ⟨text, htext, hord⟩ := hlists s i ((h.resolves_iff le_rfl).mpr ⟨hs, by omega⟩) hdir
    obtain ⟨ls, hls, hnl, hnames⟩ := h.lists hn hs hi
    rwa [htext.eq hls, listedNames, lines_flatMap hnl, hnames] at hord
  · intro hord s i hr hdir
    obtain ⟨hb, ht⟩ := h.isDirectory.mp hdir
    have hi : nodes g d i = _ := Volume.node_of_dir hb ht
    obtain ⟨ls, hls, hnl, hnames⟩ := h.lists hn ((h.resolves_iff le_rfl).mp hr).1 hi
    refine ⟨_, hls, ?_⟩
    rw [listedNames, lines_flatMap hnl, hnames]
    exact hord i _ _ hi

/-- Two listings in order of the same entries are the same. -/
theorem eq_of_listedNames {ls ls' : List Bytes} (hnodup : (ls.map dropSlash).Nodup)
    (hnodup' : (ls'.map dropSlash).Nodup) (hord : (ls.map dropSlash).Pairwise (· ≤ ·))
    (hord' : (ls'.map dropSlash).Pairwise (· ≤ ·)) (hsame : ∀ l, l ∈ ls ↔ l ∈ ls') : ls = ls' := by
  have hperm : ls.Perm ls' :=
    (List.perm_ext_iff_of_nodup hnodup.of_map hnodup'.of_map).mpr hsame
  refine hperm.eq_of_pairwise (fun a b ha hb hab hba => ?_) (List.pairwise_map.mp hord)
    (List.pairwise_map.mp hord')
  exact List.inj_on_of_nodup_map hnodup ha ((hsame b).mpr hb) (List.le_antisymm hab hba)

/-- A sorted listing depends on the set of its lines only. -/
theorem Serves.listing_eq (h : Serves g d) (hn : Named (nodes g d)) {g' : Geometry}
    (h' : Serves g' d') (hn' : Named (nodes g' d')) {s' text text' : Bytes}
    (hr : Resolves d 0 (trimmed s) i) (hi : Image.IsDirectory d.image i)
    (hr' : Resolves d' 0 (trimmed s') j) (hj : Image.IsDirectory d'.image j)
    (ht : Lists d s text) (ht' : Lists d' s' text')
    (hord : (listedNames text).Pairwise (· ≤ ·)) (hord' : (listedNames text').Pairwise (· ≤ ·))
    (hsame : ∀ l, l ∈ lines text ↔ l ∈ lines text') : text = text' := by
  obtain ⟨hb, hdir⟩ := h.isDirectory.mp hi
  obtain ⟨hb', hdir'⟩ := h'.isDirectory.mp hj
  have hnode : nodes g d i = _ := Volume.node_of_dir hb hdir
  have hnode' : nodes g' d' j = _ := Volume.node_of_dir hb' hdir'
  obtain ⟨ls, hls, hnl, hnames⟩ := h.lists hn ((h.resolves_iff le_rfl).mp hr).1 hnode
  obtain ⟨ls', hls', hnl', hnames'⟩ := h'.lists hn' ((h'.resolves_iff le_rfl).mp hr').1 hnode'
  obtain rfl := ht.eq hls
  obtain rfl := ht'.eq hls'
  rw [listedNames, lines_flatMap hnl] at hord
  rw [listedNames, lines_flatMap hnl'] at hord'
  rw [lines_flatMap hnl, lines_flatMap hnl'] at hsame
  rw [eq_of_listedNames (hnames ▸ h.sound.tree.names hnode) (hnames' ▸ h'.sound.tree.names hnode')
    hord hord' hsame]

/-! ## `PUT` -/

/-- The contents of one file at most have changed. -/
inductive Filled (f : Namespace Nat Bytes Bytes) : Namespace Nat Bytes Bytes → Prop
  | same : Filled f f
  | file {i : Nat} {c₀ c : Bytes} : f i = some (.file c₀) → Filled f (f.setFile i c)

section Filled

variable {f f' : Namespace Nat Bytes Bytes} {rel : Bytes → Bytes → Prop}

theorem Filled.ordered_iff (h : Filled f f') : f'.Ordered rel ↔ f.Ordered rel := by
  cases h with
  | same => rfl
  | file hi => exact Namespace.ordered_setFile hi

theorem Filled.named (h : Filled f f') (hn : Named f) : Named f' := by
  cases h with
  | same => exact hn
  | file hi => exact fun k y l he => hn k y l ((Namespace.entry_setFile hi).mp he)

end Filled

/-- `write`, for every size: where it returns, the directories are what they were. -/
theorem Serves.wlp_write (h : Serves g d) (n : Int) (buf : Nat → UInt8) {size : Int}
    (hsize : size < 2 ^ 31) : wlp (write n (some buf) size)
      (fun _ d' => Serves g d' ∧ Filled (nodes g d) (nodes g d')) d := by
  rcases Int.lt_or_le (2 ^ 31 - 4096) size with hlarge | hsmall
  · have hcnt := blockCount_neg hlarge hsize
    have hrefused : ∀ r : Int, wlp (pure r : FS Int)
        (fun _ d' => Serves g d' ∧ Filled (nodes g d) (nodes g d')) d := fun r => by
      rw [wlp_pure]
      exact ⟨h, .same⟩
    dsimp only [write]
    rw [if_neg (by omega), if_neg (by simp only [directPtrs]; omega), wlp_bind]
    refine wlp_of_wp ((wp_stat h.idle.toHolds n).mpr ?_)
    rcases h.sound.stat_cases n with ⟨i, rfl, hb, hstat⟩ | ⟨-, hstat⟩
    · rw [hstat]
      dsimp only
      rw [wlp_ite]
      refine ⟨fun _ => hrefused _, fun _ => ?_⟩
      refine wlp_bind_of fun super d₁ => wlp_bind_of fun _ d₂ => ?_
      rw [wlp_bind, (h.sound.good hb).blockCount]
      exact wlp_resize_neg (Int.natCast_nonneg _) hcnt
    · rw [hstat]
      exact hrefused _
  · refine wlp_of_wp (wp_write h.idle h.sound hsmall (fun r hr hno d' hd' him => ?_)
      fun i m f scratch d' hi hf hm hw _ hd' => ?_)
    · exact ⟨h.of_image hd', by rw [nodes, nodes, him]; exact .same⟩
    · refine ⟨.of_idle hd' (hw.sound h.sound), ?_⟩
      rw [nodes, nodes, hd'.volume, hw.node_eq h.sound]
      exact .file (Volume.node_of_file hw.bit hw.type_ne)

namespace Inventory

variable (σ : Inventory)

/-- No name in directory `i` is greater than `x`. -/
def ComesLast (i : Nat) (x : Bytes) : Prop :=
  ∀ pp es, σ.node i = some (.dir pp es) → ∀ y ∈ es.map Prod.fst, y ≤ Buffer.cStr x

/-- What `PUT` makes on its way along the components has the greatest name in its directory. -/
def Ascends : Inventory → Int → List Bytes → Prop
  | _, _, [] => True
  | σ, p, x :: xs =>
    if findName σ.node p x = -eNotFound then
      σ.CanMake p.toNat (if xs = [] then ufsRegularFile else ufsDirectory) x →
        σ.ComesLast p.toNat x ∧ Ascends (σ.make p.toNat ufsDirectory x) σ.newInum xs
    else 0 ≤ findName σ.node p x → Ascends σ (findName σ.node p x) xs

end Inventory

/-- Order is kept under the condition `c`, and only then. -/
structure Extends (g : Geometry) (d : Disk) (c : Prop) (d' : Disk) : Prop where
  serves : Serves g d'
  ordered_iff : (nodes g d').Ordered (· ≤ ·) ↔ (nodes g d).Ordered (· ≤ ·) ∧ c
  named : Named (nodes g d) → Named (nodes g d')

section Put

variable {c c' : Prop} {d₁ : Disk} {p type : Int} {path content : Bytes}

theorem Extends.of_filled (hs : Serves g d') (hf : Filled (nodes g d) (nodes g d')) (hc : c) :
    Extends g d c d' :=
  ⟨hs, by rw [hf.ordered_iff, and_iff_left hc], hf.named⟩

theorem Extends.trans (h : Extends g d c d₁) (h' : Extends g d₁ c' d') :
    Extends g d (c ∧ c') d' :=
  ⟨h'.serves, by rw [h'.ordered_iff, h.ordered_iff, and_assoc], fun hn => h'.named (h.named hn)⟩

theorem Extends.congr (h : Extends g d c d') (hc : c' ↔ c) : Extends g d c' d' :=
  ⟨h.serves, by rw [h.ordered_iff, hc], h.named⟩

/-- One new entry. -/
theorem Extends.of_make (hnf : findName (nodes g d) i x = -eNotFound) (hx : Clean x)
    (hmake : (inventory g d).CanMake i type x) (hs : Serves g d')
    (hinv : inventory g d' = (inventory g d).make i type x) :
    Extends g d ((inventory g d).ComesLast i x) d' := by
  obtain ⟨pp, es, hdir⟩ := hmake.dir
  have hnode : nodes g d' = (nodes g d).link i (Buffer.cStr x) (inventory g d).newInum
      (newNode type i) := congrArg Inventory.node hinv
  have hfree : nodes g d (inventory g d).newInum = none := Inventory.node_newInum hmake
  have hdir' : nodes g d i = some (.dir pp es) := hdir
  have hleaf := isLeaf_newNode type i
  refine ⟨hs, ?_, fun hn k y l he => ?_⟩
  · rw [hnode, Namespace.ordered_link hdir' hfree hleaf]
    refine and_congr_right fun _ => ⟨fun hlast pp' es' hi => ?_, fun hlast => hlast pp es hdir⟩
    rw [hdir] at hi
    cases hi
    exact hlast
  · rw [hnode, Namespace.entry_link hdir' hfree hleaf] at he
    rcases he with he | ⟨-, rfl, -⟩
    · exact hn k y l he
    · rw [Buffer.cStr_of_notMem hx.nul]
      have hgood := hmake.not_badName hnf
      exact { hx with
        ne := hmake.name_ne
        ne_dot := fun h => hgood (.inr (.inl h))
        ne_dotdot := fun h => hgood (.inr (.inr h)) }

/-- `putFile` from the write on. -/
theorem Serves.wlp_finish (h : Serves g d) (n : Int) : wlp (do
    if (← write n (some fun i => content.getD i 0) (int32 content.length)) < 0 then
      return .error (.clientError .insufficientStorage)
    else
      return .ok { status := 200, body := "File created or updated successfully.".toUTF8.toList } :
      FS Handled) (fun _ d' => Serves g d' ∧ Filled (nodes g d) (nodes g d')) d := by
  have hlt : int32 content.length < 2 ^ 31 := (Buffer.fitsInt_signed (Buffer.unsigned_lt _)).2
  rw [wlp_bind]
  refine wlp_mono (h.wlp_write n _ hlt) fun r d' hw => ?_
  rw [wlp_ite]
  exact ⟨fun _ => (wlp_pure _).mpr hw, fun _ => (wlp_pure _).mpr hw⟩

/-- A component of the path, in front of the components `xs`: order is kept under a condition that
says, together with that for `xs`, what the condition for all of them says. -/
theorem Serves.wlp_enter_ascends (h : Serves g d) (hx : Clean x) (xs : List Bytes)
    (htype : type = if xs = [] then ufsRegularFile else ufsDirectory) {α : Type} {full bad : FS α}
    {next : Int → FS α} {Q : α → Disk → Prop}
    (hstop : ∀ d₁, Extends g d ((inventory g d).Ascends p (x :: xs)) d₁ →
      wlp full Q d₁ ∧ wlp bad Q d₁)
    (hnext : ∀ r c d₁, Extends g d c d₁ →
      ((inventory g d).Ascends p (x :: xs) ↔ c ∧ (inventory g d₁).Ascends r xs) →
      wlp (next r) Q d₁) : wlp (enter type p x full bad next) Q d := by
  have ht : type = ufsDirectory ∨ type = ufsRegularFile := by
    rw [htype]
    split
    · exact .inr rfl
    · exact .inl rfl
  obtain ⟨m, d₁, hm, hrun⟩ := h.enters ht (p := p) (x := x) full bad next
  rw [wlp_congr_run hrun]
  rw [Inventory.Ascends, Volume.inventory_node, ← htype] at hstop hnext
  cases hm with
  | full hnf hno hd₁ him =>
      obtain ⟨i, -, -, hi, -⟩ := findName_eq_notFound.mp hnf
      refine (hstop d₁ (.of_filled hd₁ ?_ ?_)).1
      · rw [nodes, nodes, him]
        exact .same
      · rw [if_pos hnf, hi, Int.toNat_natCast]
        exact fun hmake => absurd hmake (hno i hi)
  | make hi hnf hmake hd₁ hinv =>
      subst hi
      refine hnext _ _ d₁ (.of_make hnf hx hmake hd₁ hinv) ?_
      rw [if_pos hnf, Int.toNat_natCast, hinv]
      by_cases hne : xs = []
      · subst hne
        exact ⟨fun hasc => hasc hmake, fun hasc _ => hasc⟩
      · rw [if_neg hne] at htype
        rw [htype]
        exact ⟨fun hasc => hasc (htype ▸ hmake), fun hasc _ => hasc⟩
  | bad hneg hnf =>
      refine (hstop d (.of_filled h .same ?_)).2
      rw [if_neg hnf]
      exact fun hpos => absurd hneg (Int.not_lt.mpr hpos)
  | @found j hj =>
      have hpos : 0 ≤ findName (nodes g d) p x := hj ▸ Int.natCast_nonneg j
      refine hnext _ True d (.of_filled h .same trivial) ?_
      rw [if_neg (not_notFound hpos), hj, true_and]
      exact ⟨fun hasc => hasc (Int.natCast_nonneg j), fun hasc _ => hasc⟩

theorem Serves.wlp_putFile (h : Serves g d) (hx : Clean x) : wlp (putFile p x content)
    (fun _ d' => Extends g d ((inventory g d).Ascends p [x]) d') d := by
  rw [putFile, openFile_eq, wlp_bind]
  refine h.wlp_enter_ascends hx [] rfl (fun d₁ hext => ⟨?_, ?_⟩) fun r c d₁ hext hasc => ?_
  · rw [wlp_pure, wlp_pure]
    exact hext
  · rw [wlp_pure, wlp_pure]
    exact hext
  · rw [wlp_pure]
    refine wlp_mono (hext.serves.wlp_finish r) fun _ d' hw => ?_
    exact (hext.trans (.of_filled hw.1 hw.2 trivial)).congr hasc

theorem Serves.wlp_putEnd (h : Serves g d) (hx : Clean path) :
    wlp (putEnd content (.ok (p, path)))
      (fun _ d' => Extends g d ((inventory g d).Ascends p [path]) d') d := by
  rw [putEnd, wlp_ite]
  refine ⟨fun hnil => ?_, fun _ => h.wlp_putFile hx⟩
  rw [wlp_pure]
  refine .of_filled h .same ?_
  rw [hnil, Inventory.Ascends]
  split
  · exact fun hmake => absurd rfl hmake.name_ne
  · exact fun _ => trivial

/-- `put` from its loop on. -/
theorem Serves.wlp_putAlong (h : Serves g d) {xs : List Bytes} (hs : ∀ x ∈ xs, Clean x)
    (hxs : xs ≠ []) : wlp (putAlong p xs) (fun out d₁ => wlp (putEnd content out)
      (fun _ d' => Extends g d ((inventory g d).Ascends p xs) d') d₁) d := by
  induction xs generalizing d p with
  | nil => exact absurd rfl hxs
  | cons x xs ih =>
      obtain ⟨hx, hs⟩ := List.forall_mem_cons.mp hs
      by_cases hne : xs = []
      · rw [hne, putAlong, wlp_pure]
        exact h.wlp_putEnd hx
      · rw [putAlong_cons p x hne]
        refine h.wlp_enter_ascends hx xs (if_neg hne).symm (fun d₁ hext => ?_)
          fun r c d₁ hext hasc => ?_
        · rw [wlp_pure, putEnd, wlp_pure]
          exact ⟨hext, hext⟩
        · exact wlp_mono (ih hext.serves hs hne) fun out d₂ hw =>
            wlp_mono hw fun _ d' hext' => (hext.trans hext').congr hasc

end Put

/-! ## Runs of updates -/

/-- The requests of a run: a `PUT` or `DELETE` of a path that the parser lets through, with any
body. -/
def HTTPRequest.Updates (request : HTTPRequest) : Prop :=
  (request.method = .put ∨ request.method = .delete) ∧
    ∃ s, (∀ c ∈ s, normalUrlChar c = true) ∧ request.path = pathPrefix ++ s

/-- The requests handled since the start, each with the disk before it, the last one first, and
the disk after them. -/
inductive Requested (numInodes numData : Int) : List (Disk × HTTPRequest) → Disk → Prop
  | boot {d : Disk} : Boots numInodes numData d → Requested numInodes numData [] d
  | request {steps : List (Disk × HTTPRequest)} {d d' : Disk} {request : HTTPRequest}
      {response : HTTPResponse} : Requested numInodes numData steps d → request.Updates →
      (invokeServiceMethod request).run d = .ok (response, d') →
      Requested numInodes numData ((d, request) :: steps) d'

/-- If the request is a `PUT`, what it makes has the greatest name in its directory. -/
def MakesLast (step : Disk × HTTPRequest) : Prop := step.2.method = .put →
  (Image.inventory step.1.image).Ascends 0 (components (step.2.path.drop pathPrefix.length))

theorem clean_of_normalUrlChar (hs : ∀ c ∈ s, normalUrlChar c = true) (hx : x ∈ components s) :
    Clean x := by
  obtain ⟨hslash, hmem⟩ := mem_components hx
  have hurl : ∀ c : UInt8, normalUrlChar c = false → c ∉ x := fun c hc h => by
    rw [hs c (hmem c h)] at hc
    cases hc
  exact ⟨hurl 0 rfl, hurl 10 rfl, hslash⟩

/-- One request of a run. -/
theorem Serves.wlp_update (h : Serves g d) {request : HTTPRequest} (hr : request.Updates) :
    wlp (invokeServiceMethod request) (fun _ d' => Extends g d (MakesLast (d, request)) d' ∨
      request.method = .delete ∧ Serves g d' ∧
        ((nodes g d).Ordered (· ≤ ·) → (nodes g d').Ordered (· ≤ ·)) ∧
        (Named (nodes g d) → Named (nodes g d'))) d := by
  obtain ⟨method, path, body⟩ := request
  obtain ⟨hmethod, s, hs, rfl⟩ := hr
  have hrespond : ∀ (handled : Handled) (d' : Disk) {Q : Disk → Prop}, Q d' →
      wlp (respond handled) (fun _ d'' => Q d'') d' := fun handled d' Q hQ => by
    refine wlp_of_wp (wp_mono (wp_respond handled) ?_)
    rintro response d'' ⟨-, rfl⟩
    exact hQ
  rw [invokeServiceMethod, wlp_bind]
  rcases hmethod with hm | hm
  · have hm : method = .put := hm
    subst hm
    have hasc : MakesLast (d, ⟨.put, pathPrefix ++ s, body⟩) ↔
        (inventory g d).Ascends 0 (components s) := by
      simp only [MakesLast, drop_pathPrefix, h.inventory_eq, forall_const]
    have hput : wlp (put ⟨.put, pathPrefix ++ s, body⟩) (fun _ d' =>
        Extends g d ((inventory g d).Ascends 0 (components s)) d') d := by
      rw [put_eq, wlp_bind]
      exact h.wlp_putAlong (fun x hx => clean_of_normalUrlChar hs hx) (components_ne_nil s)
    refine wlp_mono hput fun handled d' hext => hrespond handled d' ?_
    exact .inl (hext.congr hasc)
  · have hm : method = .delete := hm
    subst hm
    refine wlp_of_wp (wp_del h s body (fun _ e _ d' hd' him => hrespond _ d' (.inr ?_))
      fun _ ys y p k j _ _ hrem text d' hd' => hrespond _ d' (.inr ?_))
    · have hsame : nodes g d' = nodes g d := by rw [nodes, nodes, him]
      rw [hsame]
      exact ⟨rfl, h.of_image hd', id, id⟩
    · have hnode : nodes g d' = (nodes g d).unlink p y j := by
        rw [nodes, hd'.volume, hrem.node_eq h.sound]
      rw [hnode]
      refine ⟨rfl, .of_idle hd' (hrem.sound h.sound), hrem.removable.ordered, fun hn l z m he => ?_⟩
      exact hn l z m ((hrem.removable.entry_unlink h.sound.tree).mp he).1

variable {numInodes numData : Int} {steps : List (Disk × HTTPRequest)}

/-- In every state of a run the names can be listed, and the entries are in order in all of them
just when each `PUT` makes what comes last. -/
theorem Requested.serves (h : Requested numInodes numData steps d)
    (hno : Mkfs.NoOverflow numInodes numData) : ∃ g, Serves g d ∧ Named (nodes g d) ∧
      (∀ step ∈ steps, Serves g step.1 ∧ Named (nodes g step.1)) ∧
      ((∀ step ∈ steps, (nodes g step.1).Ordered (· ≤ ·)) ∧ (nodes g d).Ordered (· ≤ ·) ↔
        ∀ step ∈ steps, MakesLast step) := by
  induction h with
  | boot hb =>
      obtain ⟨g, -, -, hs, hempty⟩ := hb.serves hno
      refine ⟨g, hs, fun i x j he => absurd he (hempty i x j), by simp, ?_⟩
      simpa using Namespace.ordered_of_not_entry hempty
  | @request steps d d' request response _ hr hrun ih =>
      obtain ⟨g, hs, hn, hsteps, hiff⟩ := ih
      simp only [List.forall_mem_cons]
      rcases hs.wlp_update hr _ _ hrun with hext | ⟨hm, hs', hord, hn'⟩
      · refine ⟨g, hext.serves, hext.named hn, ⟨⟨hs, hn⟩, hsteps⟩, ?_⟩
        rw [hext.ordered_iff, ← hiff]
        constructor
        · rintro ⟨⟨-, hold⟩, hd, hlast⟩
          exact ⟨hlast, hold, hd⟩
        · rintro ⟨hlast, hold, hd⟩
          exact ⟨⟨hd, hold⟩, hd, hlast⟩
      · have hlast : MakesLast (d, request) := fun hput => by
          rw [hm] at hput
          cases hput
        refine ⟨g, hs', hn' hn, ⟨⟨hs, hn⟩, hsteps⟩, ?_⟩
        rw [← hiff, and_iff_right hlast]
        constructor
        · rintro ⟨⟨hd, hold⟩, -⟩
          exact ⟨hold, hd⟩
        · rintro ⟨hold, hd⟩
          exact ⟨⟨hd, hold⟩, hord hd⟩

/-- In the two states, listings with the same lines are the same. -/
def ListsAlike (d d' : Disk) : Prop := ∀ (s s' text text' : Bytes) (i i' : Nat),
  Resolves d 0 (trimmed s) i → Image.IsDirectory d.image i → Lists d s text →
  Resolves d' 0 (trimmed s') i' → Image.IsDirectory d'.image i' → Lists d' s' text' →
  (∀ l, l ∈ lines text ↔ l ∈ lines text') → text = text'

/-- Listings are sorted in all states of a run, just when each `PUT` of the run makes what comes
last; and in such runs they depend on the set of the entries only. -/
theorem Requested.listings (h : Requested numInodes numData steps d)
    (hno : Mkfs.NoOverflow numInodes numData) :
    ((∀ step ∈ steps, ListsInOrder step.1) ∧ ListsInOrder d ↔ ∀ step ∈ steps, MakesLast step) ∧
      ((∀ step ∈ steps, MakesLast step) → ∀ numInodes' numData' steps' d',
        Requested numInodes' numData' steps' d' → Mkfs.NoOverflow numInodes' numData' →
        (∀ step ∈ steps', MakesLast step) → ListsAlike d d') := by
  obtain ⟨g, hs, hn, hsteps, hiff⟩ := h.serves hno
  constructor
  · rw [← hiff, hs.listsInOrder_iff hn]
    refine and_congr_left fun _ => forall₂_congr fun step hstep => ?_
    exact (hsteps step hstep).1.listsInOrder_iff (hsteps step hstep).2
  · intro hlast numInodes' numData' steps' d' h' hno' hlast' s s' text text' i i'
      hr hi ht hr' hi' ht'
    obtain ⟨g', hs', hn', -, hiff'⟩ := h'.serves hno'
    obtain ⟨_, hls, hord⟩ := (hs.listsInOrder_iff hn).mpr (hiff.mpr hlast).2 s i hr hi
    obtain ⟨_, hls', hord'⟩ := (hs'.listsInOrder_iff hn').mpr (hiff'.mpr hlast').2 s' i' hr' hi'
    obtain rfl := ht.eq hls
    obtain rfl := ht'.eq hls'
    exact hs.listing_eq hn hs' hn' hr hi hr' hi' ht ht' hord hord'

theorem updates_put {c : UInt8} (hc : normalUrlChar c = true) (body : Bytes) :
    HTTPRequest.Updates ⟨.put, pathPrefix ++ [c], body⟩ :=
  ⟨.inl rfl, [c], by simpa using hc, rfl⟩

/-- A name that is not less than those in the root. -/
theorem Inventory.ascends_root {σ : Inventory} {x : Bytes} {names : List Bytes}
    (hroot : (σ.node 0).map (fun n => n.entries.map Prod.fst) = some names)
    (hx : ∀ y ∈ names, y ≤ Buffer.cStr x) : σ.Ascends 0 [x] := by
  rw [Ascends]
  split
  · refine fun _ => ⟨fun p es hdir y hy => hx y ?_, trivial⟩
    have hdir : σ.node 0 = some (.dir p es) := hdir
    rw [hdir] at hroot
    cases hroot
    exact hy
  · exact fun _ => trivial

/-- What is put returns. -/
theorem Serves.exists_put {g : Geometry} (hs : Serves g d) (s : Bytes) {b : Bytes}
    (hlen : (b.length : Int) ≤ 2 ^ 31 - 4096) : ∃ response d',
      (invokeServiceMethod ⟨.put, pathPrefix ++ s, b⟩).run d = .ok (response, d') := by
  obtain ⟨response, d', hrun, -⟩ : wp (invokeServiceMethod ⟨.put, pathPrefix ++ s, b⟩)
      (fun _ _ => True) d := by
    rw [invokeServiceMethod, wp_bind]
    exact wp_mono (hs.wp_put hlen s) fun handled d' _ =>
      wp_mono (wp_respond handled) fun _ _ _ => trivial
  exact ⟨response, d', hrun⟩

/-- The file `a` is put, and then the file `b`. -/
theorem exists_listings : ∃ d₀ d₁ d, Requested 32 32
    [(d₁, ⟨.put, pathPrefix ++ [98], [120]⟩), (d₀, ⟨.put, pathPrefix ++ [97], [120]⟩)] d ∧
    ListsInOrder d₀ ∧ ListsInOrder d₁ ∧ ListsInOrder d := by
  obtain ⟨d₀, hd₀, hP⟩ := exists_boots Mkfs.mkfs_ordinary (by decide)
    (P := fun d₀ => decide (((Image.inventory d₀.image).node 0).map
        (fun n => n.entries.map Prod.fst) = some []) &&
      returns (invokeServiceMethod ⟨.put, pathPrefix ++ [97], [120]⟩) (fun _ d₁ =>
        decide (((Image.inventory d₁.image).node 0).map (fun n => n.entries.map Prod.fst) =
          some [[97]])) d₀) (by decide +kernel)
  rw [Bool.and_eq_true, decide_eq_true_eq] at hP
  obtain ⟨hnone, hP⟩ := hP
  obtain ⟨response, d₁, hput, hone⟩ := run_of_returns hP
  have hd₁ := (Requested.boot hd₀).request (updates_put rfl [120]) hput
  obtain ⟨g, hs, -⟩ := hd₁.serves (by decide)
  obtain ⟨response', d, hput'⟩ := hs.exists_put [98] (b := [120]) (by decide)
  have hd := hd₁.request (updates_put rfl [120]) hput'
  have hfirst : MakesLast (d₀, ⟨.put, pathPrefix ++ [97], [120]⟩) := fun _ =>
    Inventory.ascends_root hnone fun _ h => absurd h List.not_mem_nil
  have hsecond : MakesLast (d₁, ⟨.put, pathPrefix ++ [98], [120]⟩) := fun _ =>
    Inventory.ascends_root (of_decide_eq_true hone) (by decide)
  have hlists := (hd.listings (by decide)).1.mpr fun step hstep => by
    obtain rfl | rfl := List.mem_pair.mp hstep
    · exact hsecond
    · exact hfirst
  exact ⟨d₀, d₁, d, hd, hlists.1 _ (List.mem_cons_of_mem _ List.mem_cons_self),
    hlists.1 _ List.mem_cons_self, hlists.2⟩

/-- Where `b` is the only name in the root and there is room, a `PUT` of `a` does not make what
comes last. -/
theorem not_makesLast {σ : Inventory} {p : Nat} {es : List (Bytes × Nat)}
    (hroot : σ.node 0 = some (.dir p es)) (hes : es.map Prod.fst = [[98]]) (hinodes : σ.inodes ≠ [])
    (hblocks : 1 ≤ σ.blocks) : ¬ σ.Ascends 0 [[97]] := by
  have hnf : findName σ.node 0 [97] = -eNotFound := by
    have hchild : σ.node.child 0 [97] = none := by
      rw [Namespace.child_eq_none hroot, hes]
      decide
    exact findName_eq_notFound.mpr ⟨0, p, es, rfl, hroot, by decide, by decide, hchild⟩
  have hlen : es.length = 1 := by rw [← List.length_map Prod.fst, hes, List.length_singleton]
  have hcount : σ.count 0 = 3 := by simp [Inventory.count, hroot, hlen]
  have hneed : σ.need 0 ufsRegularFile = 0 := by
    rw [Inventory.need, hcount]
    rfl
  have hmake : σ.CanMake 0 ufsRegularFile [97] :=
    ⟨⟨p, es, hroot⟩, by omega, by simp, by decide, hinodes, by omega⟩
  intro hasc
  rw [Inventory.Ascends, if_pos hnf] at hasc
  have hle := (hasc hmake).1 p es hroot [98] (by simp [hes])
  exact absurd hle (by decide)

/-- A node whose entries have a name is a directory. -/
theorem exists_dir_of_names {o : Option (Node Nat Bytes Bytes)} {x : Bytes}
    (h : o.map (fun n => n.entries.map Prod.fst) = some [x]) :
    ∃ p es, o = some (.dir p es) ∧ es.map Prod.fst = [x] := by
  obtain ⟨n, rfl, hn⟩ := Option.map_eq_some_iff.mp h
  cases n with
  | file c => cases hn
  | dir p es => exact ⟨p, es, rfl, hn⟩

/-- The file `a`, put after `b`, is listed after `b`. -/
theorem exists_not_listsInOrder : ∃ d₀ d₁ d, Requested 32 32
    [(d₁, ⟨.put, pathPrefix ++ [97], [120]⟩), (d₀, ⟨.put, pathPrefix ++ [98], [120]⟩)] d ∧
    ¬ ListsInOrder d := by
  obtain ⟨d₀, hd₀, hP⟩ := exists_boots Mkfs.mkfs_ordinary (by decide)
    (P := returns (invokeServiceMethod ⟨.put, pathPrefix ++ [98], [120]⟩) fun _ d₁ =>
      decide (((Image.inventory d₁.image).node 0).map (fun n => n.entries.map Prod.fst) =
        some [[98]]) &&
      decide ((Image.inventory d₁.image).inodes ≠ []) &&
      decide (1 ≤ (Image.inventory d₁.image).blocks)) (by decide +kernel)
  obtain ⟨response, d₁, hput, hP⟩ := run_of_returns hP
  simp only [Bool.and_eq_true, decide_eq_true_eq] at hP
  obtain ⟨⟨hes, hinodes⟩, hblocks⟩ := hP
  obtain ⟨p, es, hroot, hes⟩ := exists_dir_of_names hes
  have hd₁ := (Requested.boot hd₀).request (updates_put rfl [120]) hput
  obtain ⟨g, hs, hn, -⟩ := hd₁.serves (by decide)
  have hup := updates_put (c := 97) rfl [120]
  obtain ⟨response', d, hput'⟩ := hs.exists_put [97] (b := [120]) (by decide)
  refine ⟨d₀, d₁, d, hd₁.request hup hput', fun hlists => ?_⟩
  rcases hs.wlp_update hup _ _ hput' with hext | ⟨hm, -⟩
  · have hord := (hext.serves.listsInOrder_iff (hext.named hn)).mp hlists
    exact not_makesLast hroot hes hinodes hblocks ((hext.ordered_iff.mp hord).2 rfl)
  · cases hm

end Gunrock
