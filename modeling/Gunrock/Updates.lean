import Gunrock.Deleting
import Gunrock.Putting

/-!
# No update is lost

What a client of the service knows of it is a map from paths to contents, which the `PUT`
and `DELETE` requests that succeed update, each at its own path (`written`).  The tree on
the disk, seen through paths, is that map (`Served.visible`), so a `GET` answers what was
last written to its path.

A file that exists but is empty is not visible: it comes from a `PUT` that failed, and a
`GET` of it fails as well.
-/

namespace Gunrock

open Disk LocalFileSystem DistributedFileSystemService Wp

/-! ## Plain paths -/

/-- The name is not empty, a C string, and does not lead back. -/
structure Plain (x : Bytes) : Prop where
  ne : x ≠ []
  nul : (0 : UInt8) ∉ x
  ne_dot : x ≠ dot
  ne_dotdot : x ≠ dotdot

/-- The path is the root, or all of its components are plain. -/
def PlainPath (s : Bytes) : Prop := s = [] ∨ ∀ x ∈ components s, Plain x

variable {s s' x : Bytes} {xs ys : List Bytes} {f : Namespace Nat Bytes Bytes} {i j p : Nat}

theorem PlainPath.trimmed_eq (h : PlainPath s) (hs : s ≠ []) : trimmed s = components s := by
  rw [trimmed, if_neg]
  intro hlast
  obtain ⟨l, hl⟩ := List.getLast?_eq_some_iff.mp hlast
  exact (h.resolve_left hs [] (by simp [hl])).ne rfl

theorem PlainPath.plain (h : PlainPath s) : ∀ x ∈ trimmed s, Plain x := by
  by_cases hs : s = []
  · subst hs
    simp
  · rw [h.trimmed_eq hs]
    exact h.resolve_left hs

theorem PlainPath.inj (h : PlainPath s) (h' : PlainPath s') : trimmed s = trimmed s' ↔ s = s' := by
  refine ⟨fun heq => ?_, fun heq => heq ▸ rfl⟩
  by_cases hs : s = []
  · subst hs
    by_contra hne
    rw [h'.trimmed_eq (Ne.symm hne), trimmed_nil] at heq
    exact components_ne_nil s' heq.symm
  · by_cases hs' : s' = []
    · subst hs'
      rw [h.trimmed_eq hs, trimmed_nil] at heq
      exact absurd heq (components_ne_nil s)
    · rw [h.trimmed_eq hs, h'.trimmed_eq hs'] at heq
      have hjoin : ∀ s, [47].intercalate (components s) = s := fun s => List.intercalate_splitOn 47
      rw [← hjoin s, ← hjoin s', heq]

theorem PlainPath.dropSlash_eq (h : PlainPath s) : dropSlash s = s := by
  rw [dropSlash, if_neg]
  intro hlast
  obtain ⟨l, rfl⟩ := List.getLast?_eq_some_iff.mp hlast
  have hcomp : components (l ++ [47]) = components l ++ [[]] := List.splitOn_append_cons_self l []
  exact (h.resolve_left (by simp) [] (by simp [hcomp])).ne rfl

/-- A plain name is looked up among the entries. -/
theorem Plain.child_iff (hx : Plain x) : f.child p x = some j ↔ findName f p x = j := by
  by_cases hp : ∃ q es, f p = some (.dir q es)
  · obtain ⟨q, es, hdir⟩ := hp
    rw [findName_dir x hdir, Buffer.cStr_of_notMem hx.nul, if_neg hx.ne_dot, if_neg hx.ne_dotdot]
    cases f.child p x with
    | none =>
        simp only [eNotFound, reduceCtorEq]
    | some k =>
        simp only [Option.some.injEq]
        omega
  · have hnone : f.child p x = none := by
      rw [Namespace.child]
      split
      · rename_i q es hdir
        exact absurd ⟨q, es, hdir⟩ hp
      · rfl
    rw [findName_of_not_dir x fun q es he => hp ⟨q, es, he⟩, hnone]
    simp only [eInvalidInode, reduceCtorEq]

theorem Plain.child_of_notFound (hx : Plain x) (h : findName f p x = -eNotFound) :
    f.child p x = none := by
  rw [Option.eq_none_iff_forall_ne_some]
  intro j hj
  rw [hx.child_iff, h] at hj
  cases hj

/-- On plain names the walk of the handlers is that of the namespace. -/
theorem follow_iff_walk (hxs : ∀ x ∈ xs, Plain x) : follow f p xs = j ↔ f.walk p xs = some j := by
  induction xs generalizing p with
  | nil =>
      rw [follow, Namespace.walk_nil, Option.some.injEq]
      omega
  | cons x xs ih =>
      have hx := hxs x List.mem_cons_self
      rw [follow, Namespace.walk_cons, Option.bind_eq_some_iff]
      by_cases hneg : findName f p x < 0
      · rw [if_pos hneg]
        constructor
        · intro h
          omega
        · rintro ⟨k, hk, -⟩
          rw [hx.child_iff] at hk
          omega
      · obtain ⟨k, hk⟩ := Int.eq_ofNat_of_zero_le (Int.not_lt.mp hneg)
        rw [if_neg hneg, hk, ih fun y hy => hxs y (List.mem_cons_of_mem _ hy), hx.child_iff.mpr hk]
        simp

/-! ## What a client sees -/

/-- The contents of the file that a path leads to, unless it is empty. -/
def visible (f : Namespace Nat Bytes Bytes) (xs : List Bytes) : Option Bytes :=
  (f.content 0 xs).filter fun c => c ≠ []

section Changes

variable {f' : Namespace Nat Bytes Bytes} {n : Node Nat Bytes Bytes} {c : Bytes}

theorem visible_update {o : Option Bytes} (h : f'.content 0 = Function.update (f.content 0) xs o) :
    visible f' = Function.update (visible f) xs (o.filter fun c => c ≠ []) := by
  funext zs
  rw [visible, h, Function.update_apply, Function.update_apply]
  split
  · rfl
  · rfl

/-- A new entry is not visible. -/
theorem visible_link (ht : f.IsTree 0) (hp : ∃ q es, f p = some (.dir q es)) (hj : f j = none)
    (hx : f.child p x = none) (type : Int) (hxs : f.walk 0 xs = some p) :
    visible (f.link p x j (newNode type p)) = visible f := by
  obtain ⟨q, es, hdir⟩ := hp
  have hcontent := Namespace.content_link ht hdir hj ((Namespace.child_eq_none hdir).mp hx)
    (isLeaf_newNode type p) hxs
  have hempty : (newNode type p).content?.filter (fun c => c ≠ []) = none := by
    rw [newNode]
    split
    · rfl
    · rfl
  have hnone : visible f (xs ++ [x]) = none := by
    rw [visible, Namespace.content, Namespace.walk_append, hxs]
    simp [Namespace.walk_cons, hx]
  rw [visible_update hcontent, hempty, ← hnone, Function.update_eq_self]

theorem visible_setFile (ht : f.IsTree 0) {c₀ : Bytes} (hi : f i = some (.file c₀)) (hc : c ≠ [])
    (hxs : f.walk 0 xs = some i) :
    visible (f.setFile i c) = Function.update (visible f) xs (some c) := by
  rw [visible_update (Namespace.content_setFile ht hi hxs), Option.filter_some,
    if_pos (decide_eq_true hc)]

theorem visible_unlink (ht : f.IsTree 0) (hr : f.Removable p x j) (hxs : f.walk 0 xs = some p) :
    visible (f.unlink p x j) = Function.update (visible f) (xs ++ [x]) none :=
  visible_update (hr.content_unlink ht hxs)

end Changes

/-! ## `PUT` and `DELETE` -/

section Requests

variable {content : Bytes} {σ : Inventory} {ok : Bool}

theorem Fills.visible_eq (h : Fills content σ i f ok) (ht : σ.node.IsTree 0)
    (hxs : σ.node.walk 0 xs = some i) :
    visible f = if ok then Function.update (visible σ.node) xs (some content)
      else visible σ.node := by
  cases h with
  | written hfill =>
      obtain ⟨hpos, -, c₀, hc₀, -⟩ := hfill
      exact visible_setFile ht hc₀ (List.ne_nil_of_length_pos hpos) hxs
  | refused _ => rfl

/-- Where the nodes are a tree, so it is with a new entry, which a client does not see. -/
theorem Inventory.CanMake.tree {type : Int} (h : σ.CanMake i type x) (ht : σ.node.IsTree 0)
    (hx : Plain x) (hchild : σ.node.child i x = none) (hxs : σ.node.walk 0 xs = some i) :
    (σ.make i type x).node.IsTree 0 ∧
      (σ.make i type x).node.walk 0 (xs ++ [x]) = some σ.newInum ∧
      visible (σ.make i type x).node = visible σ.node := by
  obtain ⟨q, es, hdir⟩ := h.dir
  have hfresh := (Namespace.child_eq_none hdir).mp hchild
  have hleaf := isLeaf_newNode type i
  rw [Inventory.make_node, Buffer.cStr_of_notMem hx.nul]
  exact ⟨ht.link hdir (Inventory.node_newInum h) hfresh hleaf,
    (Namespace.walk_link ht hdir (Inventory.node_newInum h) hfresh hleaf).mpr
      (.inr ⟨rfl, xs, rfl, hxs⟩),
    visible_link ht h.dir (Inventory.node_newInum h) hchild type hxs⟩

/-- A `PUT` changes what a client sees at its own path only, and only when it succeeds. -/
theorem Puts.visible_eq {p : Int} (h : Puts content σ p ys f ok) (ht : σ.node.IsTree 0)
    (hys : ∀ y ∈ ys, Plain y) (hp : p = i) (hxs : σ.node.walk 0 xs = some i) :
    visible f = if ok then Function.update (visible σ.node) (xs ++ ys) (some content)
      else visible σ.node := by
  induction h generalizing xs i with
  | @enter σ p x ys f ok _ hpos _ ih =>
      subst hp
      obtain ⟨k, hk⟩ := Int.eq_ofNat_of_zero_le hpos
      have hchild := (hys x List.mem_cons_self).child_iff.mpr hk
      have hrest := ih ht (fun y hy => hys y (List.mem_cons_of_mem _ hy)) hk
        (Namespace.walk_concat.mpr ⟨i, hxs, hchild⟩)
      rwa [List.append_assoc, List.singleton_append] at hrest
  | @make σ i' x ys f ok _ hnf hmake _ ih =>
      obtain rfl : i' = i := by omega
      have hx := hys x List.mem_cons_self
      have hchild := hx.child_of_notFound hnf
      obtain ⟨ht', hwalk, hvis⟩ := hmake.tree ht hx hchild hxs
      have hrest := ih ht' (fun y hy => hys y (List.mem_cons_of_mem _ hy)) rfl hwalk
      rwa [hvis, List.append_assoc, List.singleton_append] at hrest
  | stop _ _ => rfl
  | unnamed => rfl
  | @fill σ p x j f ok _ hj hfills =>
      subst hp
      have hchild := (hys x List.mem_cons_self).child_iff.mpr hj
      exact hfills.visible_eq ht (Namespace.walk_concat.mpr ⟨i, hxs, hchild⟩)
  | @makeFile σ i' x f ok hnf hmake hfills =>
      obtain rfl : i' = i := by omega
      have hx := hys x List.mem_cons_self
      have hchild := hx.child_of_notFound hnf
      obtain ⟨ht', hwalk, hvis⟩ := hmake.tree ht hx hchild hxs
      rw [hfills.visible_eq ht' hwalk, hvis]

end Requests

/-! ## Runs of requests -/

/-- The requests of a run: to plain paths, with bodies whose length stays clear of the end of
an `int` by one block. -/
def HTTPRequest.Admissible (request : HTTPRequest) : Prop :=
  (request.method = .get ∨ request.method = .put ∨ request.method = .delete) ∧
    (∃ s, PlainPath s ∧ request.path = pathPrefix ++ s) ∧
    (request.body.length : Int) ≤ 2 ^ 31 - 4096

/-- The requests handled since the start with the statuses they got, the last one first, and
the disk after them. -/
inductive Served (numInodes numData : Int) : List (HTTPRequest × Int) → Disk → Prop
  | boot {d : Disk} : Boots numInodes numData d → Served numInodes numData [] d
  | request {log : List (HTTPRequest × Int)} {d d' : Disk} {request : HTTPRequest}
      {response : HTTPResponse} : Served numInodes numData log d → request.Admissible →
      (invokeServiceMethod request).run d = .ok (response, d') →
      Served numInodes numData ((request, response.status) :: log) d'

/-- A `PUT` or `DELETE` of the path `s` that got status 200. -/
def IsUpdate (s : Bytes) (entry : HTTPRequest × Int) : Prop :=
  entry.1.path = pathPrefix ++ s ∧ (entry.1.method = .put ∨ entry.1.method = .delete) ∧
    entry.2 = 200

instance (s : Bytes) (entry : HTTPRequest × Int) : Decidable (IsUpdate s entry) :=
  inferInstanceAs (Decidable (_ ∧ _ ∧ _))

/-- The last of them. -/
def lastUpdate (log : List (HTTPRequest × Int)) (s : Bytes) : Option HTTPRequest :=
  (log.find? fun entry => IsUpdate s entry).map Prod.fst

/-- What a path was last given, if it was not deleted since. -/
def written (log : List (HTTPRequest × Int)) (s : Bytes) : Option Bytes :=
  (lastUpdate log s).bind fun request => if request.method = .put then some request.body else none

section Log

variable {log : List (HTTPRequest × Int)} {entry : HTTPRequest × Int} {b : Bytes}

theorem written_cons_of_update (h : IsUpdate s entry) : written (entry :: log) s =
    if entry.1.method = .put then some entry.1.body else none := by
  rw [written, lastUpdate, List.find?_cons_of_pos (by simpa using h)]
  rfl

theorem written_cons_of_not (h : ¬ IsUpdate s entry) : written (entry :: log) s = written log s := by
  rw [written, written, lastUpdate, lastUpdate, List.find?_cons_of_neg (by simpa using h)]

/-- An update is one of its own path. -/
theorem IsUpdate.written_cons {s₀ : Bytes} (h : IsUpdate s₀ entry) (hs₀ : PlainPath s₀)
    {seen : List Bytes → Option Bytes}
    (hlog : ∀ s, PlainPath s → written log s = seen (trimmed s)) (hs : PlainPath s) :
    written (entry :: log) s = Function.update seen (trimmed s₀)
      (if entry.1.method = .put then some entry.1.body else none) (trimmed s) := by
  by_cases heq : s = s₀
  · subst heq
    rw [written_cons_of_update h, Function.update_self]
  · rw [Function.update_of_ne ((hs.inj hs₀).not.mpr heq), ← hlog s hs]
    refine written_cons_of_not fun h' => heq ?_
    exact List.append_cancel_left (h'.1.symm.trans h.1)

theorem written_eq_some : written log s = some b ↔
    ∃ request, lastUpdate log s = some request ∧ request.method = .put ∧ request.body = b := by
  rw [written, Option.bind_eq_some_iff]
  refine exists_congr fun request => and_congr_right fun _ => ?_
  split
  · rename_i hput
    simp [hput]
  · rename_i hput
    simp [hput]

end Log

/-- Nothing is visible in a tree without entries. -/
theorem visible_of_not_entry (ht : f.IsTree 0) (h : ∀ i x j, ¬ f.Entry i x j) (xs : List Bytes) :
    visible f xs = none := by
  have hcontent : f.content 0 xs = none := by
    cases xs with
    | nil =>
        obtain ⟨es, hroot⟩ := ht.root
        rw [Namespace.content, Namespace.walk_nil, Option.bind_some, hroot]
        rfl
    | cons x xs =>
        have hchild : f.child 0 x = none :=
          Option.eq_none_iff_forall_ne_some.mpr fun j hj => h 0 x j (Namespace.entry_of_child hj)
        rw [Namespace.content, Namespace.walk_cons, hchild]
        rfl
  rw [visible, hcontent]
  rfl

/-! ## One request -/

section Request

variable {g : Geometry} {d d' : Disk} {content : Bytes} {σ : Inventory} {ok : Bool}

theorem Puts.root {p : Int} (h : Puts content σ p [[]] f ok) : ok = false ∧ f = σ.node := by
  cases h with
  | enter hne _ _ => exact absurd rfl hne
  | make hne _ _ _ => exact absurd rfl hne
  | stop _ _ => exact ⟨rfl, rfl⟩
  | unnamed => exact ⟨rfl, rfl⟩
  | fill hne _ _ => exact absurd rfl hne
  | makeFile _ hmake _ => exact absurd rfl hmake.name_ne

/-- The disk after a request to the path `s`, seen by a client: a `PUT` or `DELETE` that
succeeds has set this path, and anything else has changed nothing. -/
def Handled.Sets (g : Geometry) (d : Disk) (s : Bytes) (c : Option Bytes) (handled : Handled)
    (d' : Disk) : Prop :=
  Serves g d' ∧ ((∃ text, handled = .ok ⟨200, text⟩) ∧
      visible (nodes g d') = Function.update (visible (nodes g d)) (trimmed s) c ∨
    (∃ e, e.statusCode ≠ 200 ∧ handled = .error (.clientError e)) ∧
      visible (nodes g d') = visible (nodes g d))

theorem Serves.wp_put_sets (h : Serves g d) (hs : PlainPath s)
    (hlen : (content.length : Int) ≤ 2 ^ 31 - 4096) :
    wp (put ⟨.put, pathPrefix ++ s, content⟩) (Handled.Sets g d s (some content)) d := by
  refine wp_mono (h.wp_put hlen s) fun handled d' hdone => ?_
  obtain ⟨hd', ok, hputs, ha, -⟩ := hdone
  have hvis : visible (nodes g d') = if ok then
      Function.update (visible (nodes g d)) (trimmed s) (some content)
      else visible (nodes g d) := by
    by_cases hnil : s = []
    · subst hnil
      obtain ⟨rfl, hsame⟩ := Puts.root hputs
      rw [hsame]
      rfl
    · rw [hs.trimmed_eq hnil]
      exact hputs.visible_eq h.sound.tree (hs.resolve_left hnil) rfl (Namespace.walk_nil 0)
  cases ok with
  | true => exact ⟨hd', .inl ⟨ha, hvis⟩⟩
  | false => exact ⟨hd', .inr ⟨ha, hvis⟩⟩

theorem Serves.wp_del_sets (h : Serves g d) (hs : PlainPath s) (body : Bytes) :
    wp (del ⟨.delete, pathPrefix ++ s, body⟩) (Handled.Sets g d s none) d := by
  refine wp_del h s body (fun _ e he d' hd' him => ?_)
    fun hdel ys y p k j hc hp hr text d' hd' => ?_
  · exact ⟨h.of_image hd', .inr ⟨⟨e, he, rfl⟩, by rw [nodes, him]⟩⟩
  · rw [hs.dropSlash_eq] at hc
    have hplain := hs.resolve_left hdel.1
    rw [hc] at hplain
    have hwalk := (follow_iff_walk fun z hz => hplain z (List.mem_append_left _ hz)).mp hp
    refine ⟨.of_idle hd' (hr.sound h.sound), .inl ⟨⟨text, rfl⟩, ?_⟩⟩
    rw [nodes, hd'.volume, hr.node_eq h.sound, hs.trimmed_eq hdel.1, hc]
    exact visible_unlink h.sound.tree hr.removable hwalk

/-- One request of a run: what was last written where is what a client sees. -/
theorem Serves.wp_request (h : Serves g d) {request : HTTPRequest} (hr : request.Admissible)
    {log : List (HTTPRequest × Int)}
    (hlog : ∀ s, PlainPath s → written log s = visible (nodes g d) (trimmed s)) :
    wp (invokeServiceMethod request) (fun response d' => Serves g d' ∧ ∀ s, PlainPath s →
      written ((request, response.status) :: log) s = visible (nodes g d') (trimmed s)) d := by
  obtain ⟨method, path, body⟩ := request
  obtain ⟨hmethod, ⟨s₀, hs₀, rfl⟩, hlen⟩ := hr
  -- the two outcomes of an update
  have hsets : ∀ c handled d', (method = .put ∨ method = .delete) →
      c = (if method = .put then some body else none) → Handled.Sets g d s₀ c handled d' →
      wp (respond handled) (fun response d' => Serves g d' ∧ ∀ s, PlainPath s →
        written ((⟨method, pathPrefix ++ s₀, body⟩, response.status) :: log) s =
          visible (nodes g d') (trimmed s)) d' := by
    rintro c handled d' hm rfl ⟨hd', ⟨⟨text, rfl⟩, hvis⟩ | ⟨⟨e, he, rfl⟩, hvis⟩⟩
    · rw [respond, wp_pure]
      refine ⟨hd', fun s hs => ?_⟩
      have hup : IsUpdate s₀ (⟨method, pathPrefix ++ s₀, body⟩, 200) := ⟨rfl, hm, rfl⟩
      rw [hup.written_cons hs₀ hlog hs, hvis]
    · rw [respond, wp_pure]
      refine ⟨hd', fun s hs => ?_⟩
      rw [written_cons_of_not fun hup => he hup.2.2, hvis, hlog s hs]
  rw [invokeServiceMethod, wp_bind]
  rcases hmethod with hm | hm | hm
  · have hm : method = .get := hm
    subst hm
    have hsame : ∀ handled, wp (respond handled) (fun response d' => Serves g d' ∧
        ∀ s, PlainPath s → written ((⟨.get, pathPrefix ++ s₀, body⟩, response.status) :: log) s =
          visible (nodes g d') (trimmed s)) d := by
      intro handled
      obtain ⟨response, hresponse⟩ : ∃ response, respond handled = pure response := by
        rcases handled with (e | _) | response
        · exact ⟨_, rfl⟩
        · exact ⟨_, rfl⟩
        · exact ⟨_, rfl⟩
      rw [hresponse, wp_pure]
      refine ⟨h, fun s hs => ?_⟩
      rw [written_cons_of_not fun hup => by simpa using hup.2.1, hlog s hs]
    exact wp_get h.idle.toHolds h.sound s₀ body (fun _ => hsame _) (fun _ _ _ _ => hsame _)
      fun _ _ _ _ => hsame _
  · have hm : method = .put := hm
    subst hm
    exact wp_mono (h.wp_put_sets hs₀ hlen) fun handled d' hset =>
      hsets _ handled d' (.inl rfl) rfl hset
  · have hm : method = .delete := hm
    subst hm
    exact wp_mono (h.wp_del_sets hs₀ body) fun handled d' hset =>
      hsets _ handled d' (.inr rfl) rfl hset

end Request

/-! ## All requests of a run -/

variable {numInodes numData : Int} {log : List (HTTPRequest × Int)} {d : Disk}

/-- In every state of a run, what was last written where is what a client sees. -/
theorem Served.visible (h : Served numInodes numData log d)
    (hno : Mkfs.NoOverflow numInodes numData) : ∃ g, Serves g d ∧ ∀ s, PlainPath s →
      written log s = Gunrock.visible (nodes g d) (trimmed s) := by
  induction h with
  | boot hb =>
      obtain ⟨g, -, -, hs, hempty⟩ := hb.serves hno
      exact ⟨g, hs, fun s _ => (visible_of_not_entry hs.sound.tree hempty _).symm⟩
  | request _ hr hrun ih =>
      obtain ⟨g, hs, hlog⟩ := ih
      exact ⟨g, wlp_of_wp (hs.wp_request hr hlog) _ _ hrun⟩

/-- A file that is not empty is visible. -/
theorem visible_eq_some {b : Bytes} : visible f xs = some b ↔
    b ≠ [] ∧ ∃ i, f.walk 0 xs = some i ∧ f i = some (.file b) := by
  rw [visible, Option.filter_eq_some_iff, Namespace.content_eq_some, and_comm]
  simp

/-- What `GET` answers for the path of a file. -/
theorem Serves.wp_get_file {g : Geometry} (h : Serves g d) (body : Bytes)
    (hi : follow (nodes g d) 0 (trimmed s) = i) (hfile : Image.IsFile d.image i) :
    wp (invokeServiceMethod ⟨.get, pathPrefix ++ s, body⟩) (fun response _ =>
      response = if (g.volume d.image).content g i = [] then ⟨500, []⟩
        else ⟨200, (g.volume d.image).content g i⟩) d := by
  obtain ⟨hb, ht⟩ := h.isFile.mp hfile
  have hne : ((g.volume d.image).inode i).type ≠ ufsDirectory := by
    rw [ht]
    decide
  have hnonneg := (h.sound.good hb).size_nonneg
  have hempty : (g.volume d.image).content g i = [] ↔ ((g.volume d.image).inode i).size = 0 := by
    rw [← List.length_eq_zero_iff, Volume.length_content]
    omega
  rw [invokeServiceMethod, wp_bind]
  refine wp_get h.idle.toHolds h.sound s body (fun hneg => ?_) (fun j hj _ _ => ?_)
    fun j hj _ hdir => ?_
  · rw [nodes] at hi
    omega
  · obtain rfl : i = j := by
      rw [nodes] at hi
      omega
    by_cases h0 : ((g.volume d.image).inode i).size = 0
    · rw [if_pos h0, if_pos (hempty.mpr h0), respond, wp_pure]
    · rw [if_neg h0, if_neg (hempty.not.mpr h0), respond, wp_pure]
  · obtain rfl : i = j := by
      rw [nodes] at hi
      omega
    exact absurd hdir hne

/-- `GET` of the path `s` answers what the last update of `s` has put there. -/
structure NoLostUpdate (log : List (HTTPRequest × Int)) (d : Disk) (s body : Bytes) : Prop where
  /-- What was put is there. -/
  kept : ∀ request, lastUpdate log s = some request → request.method = .put →
    ∃ d', (invokeServiceMethod ⟨.get, pathPrefix ++ s, body⟩).run d =
      .ok (⟨200, request.body⟩, d')
  /-- What is there was put. -/
  put : ∀ response d' (i : Nat),
    (invokeServiceMethod ⟨.get, pathPrefix ++ s, body⟩).run d = .ok (response, d') →
    response.status = 200 → Resolves d 0 (trimmed s) i → Image.IsFile d.image i →
    ∃ request, lastUpdate log s = some request ∧ request.method = .put ∧
      response.body = request.body

/-- No update is lost, in all runs that start from a proper layout. -/
theorem Served.noLostUpdate (h : Served numInodes numData log d)
    (hno : Mkfs.NoOverflow numInodes numData) (hs : PlainPath s) (body : Bytes) :
    NoLostUpdate log d s body := by
  obtain ⟨g, hg, hlog⟩ := h.visible hno
  have hwalk : ∀ i : Nat, follow (nodes g d) 0 (trimmed s) = i ↔
      (nodes g d).walk 0 (trimmed s) = some i := fun i => follow_iff_walk hs.plain
  constructor
  · intro request hlast hput
    have hwritten := written_eq_some.mpr ⟨request, hlast, hput, rfl⟩
    rw [hlog s hs, visible_eq_some] at hwritten
    obtain ⟨hne, i, hi, hfile⟩ := hwritten
    obtain ⟨ht, hcontent⟩ := Volume.file_of_node hfile
    have hb := Volume.bit_of_node hfile
    have hisFile := hg.isFile.mpr ⟨hb, (hg.sound.good hb).type.resolve_left ht⟩
    obtain ⟨response, d', hrun, rfl⟩ := hg.wp_get_file body ((hwalk i).mpr hi) hisFile
    rw [hcontent, if_neg hne] at hrun
    exact ⟨d', hrun⟩
  · intro response d' i hrun hstatus hr hfile
    have hi := ((hg.resolves_iff le_rfl).mp hr).1
    obtain ⟨hb, ht⟩ := hg.isFile.mp hfile
    have hnode : nodes g d i = _ := Volume.node_of_file hb (by rw [ht]; decide)
    have hresponse := wlp_of_wp (hg.wp_get_file body hi hfile) _ _ hrun
    by_cases hempty : (g.volume d.image).content g i = []
    · rw [if_pos hempty] at hresponse
      rw [hresponse] at hstatus
      cases hstatus
    · rw [if_neg hempty] at hresponse
      have hwritten : written log s = some ((g.volume d.image).content g i) := by
        rw [hlog s hs, visible_eq_some]
        exact ⟨hempty, i, (hwalk i).mp hi, hnode⟩
      obtain ⟨request, hlast, hput, hbody⟩ := written_eq_some.mp hwritten
      exact ⟨request, hlast, hput, by rw [hresponse, hbody]⟩

/-- A path of one component. -/
theorem PlainPath.single (hcomp : components s = [x]) (hx : Plain x) : PlainPath s :=
  .inr fun y hy => by
    rw [hcomp, List.mem_singleton] at hy
    exact hy ▸ hx

theorem plainPath_a : PlainPath [97] := .single (x := [97]) (by decide) (by constructor <;> decide)

theorem exists_noLostUpdate : ∃ log d, Served 32 32 log d ∧ written log [97] = some [120] ∧
    NoLostUpdate log d [97] [] := by
  let request : HTTPRequest := ⟨.put, pathPrefix ++ [97], [120]⟩
  obtain ⟨d, hd, hP⟩ := exists_boots Mkfs.mkfs_ordinary (by decide)
    (P := fun d => (result (invokeServiceMethod ⟨.put, pathPrefix ++ [97], [120]⟩) d).map
      HTTPResponse.status = some 200) (by decide +kernel)
  obtain ⟨response, hput, hstatus⟩ := Option.map_eq_some_iff.mp (of_decide_eq_true hP)
  obtain ⟨d', hput⟩ := run_of_result hput
  have hadm : request.Admissible := ⟨.inr (.inl rfl), ⟨_, plainPath_a, rfl⟩, by decide⟩
  have hserved := (Served.boot hd).request hadm hput
  refine ⟨_, d', hserved, ?_, hserved.noLostUpdate (by decide) plainPath_a []⟩
  rw [hstatus]
  rfl

/-- Where the data region overlaps the inode table, a `PUT` that succeeds can destroy the root
directory, and the file with it. -/
theorem exists_not_noLostUpdate : ∃ log d, Served 33554400 32 log d ∧ PlainPath [97] ∧
    ¬ NoLostUpdate log d [97] [] := by
  let request : HTTPRequest := ⟨.put, pathPrefix ++ [97], [120]⟩
  obtain ⟨d, hd, hP⟩ := exists_boots Mkfs.mkfs_overlapping (by decide)
    (P := returns (invokeServiceMethod ⟨.put, pathPrefix ++ [97], [120]⟩) fun response =>
      returns (invokeServiceMethod ⟨.get, pathPrefix ++ [97], []⟩) fun response' _ =>
        decide (response.status = 200) && decide (response'.status = 404)) (by decide +kernel)
  obtain ⟨response, d', hput, hP⟩ := run_of_returns hP
  obtain ⟨response', d'', hget, hP⟩ := run_of_returns hP
  simp only [Bool.and_eq_true, decide_eq_true_eq] at hP
  obtain ⟨hstatus, h404⟩ := hP
  have hadm : request.Admissible := ⟨.inr (.inl rfl), ⟨_, plainPath_a, rfl⟩, by decide⟩
  refine ⟨_, d', (Served.boot hd).request hadm hput, plainPath_a, fun hno => ?_⟩
  have hlast : lastUpdate [(request, response.status)] [97] = some request := by
    rw [hstatus]
    rfl
  obtain ⟨d₁, hrun⟩ := hno.kept request hlast rfl
  rw [hget] at hrun
  cases hrun
  cases h404

end Gunrock
