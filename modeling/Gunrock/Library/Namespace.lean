import Mathlib.Data.List.Induction
import Mathlib.Data.List.Nodup
import Mathlib.Logic.Function.Basic
import Mathlib.Logic.Relation
import Mathlib.Tactic.Common

/-!
# Hierarchical namespaces

A namespace gives some of the nodes `ι` a meaning: a file with contents `γ`, or a
directory, which knows its parent and maps names `κ` to nodes.  Among the graphs this
allows, `IsTree` picks those a file system should have.

Three changes are considered, each of one leaf: linking a new one (`link`), removing one
(`unlink`), and giving a file other contents (`setFile`).  They keep `IsTree`, and seen
through paths they are updates of a partial map from paths to contents (`content`).  That
map is what a client of the namespace knows of it.
-/

universe u v w

/-- What a node is. -/
inductive Node (ι : Type u) (κ : Type v) (γ : Type w) where
  | file (content : γ)
  | dir (parent : ι) (entries : List (κ × ι))

/-- The nodes in use. -/
abbrev Namespace (ι : Type u) (κ : Type v) (γ : Type w) := ι → Option (Node ι κ γ)

namespace Node

variable {ι : Type u} {κ : Type v} {γ : Type w}

/-- The entries of a directory; a file has none. -/
def entries : Node ι κ γ → List (κ × ι)
  | file _ => []
  | dir _ es => es

/-- Change the entries of a directory. -/
def mapEntries (h : List (κ × ι) → List (κ × ι)) : Node ι κ γ → Node ι κ γ
  | file c => file c
  | dir p es => dir p (h es)

/-- Whether the node is a file. -/
def content? : Node ι κ γ → Option γ
  | file c => some c
  | dir _ _ => none

end Node

namespace Namespace

variable {ι : Type u} {κ : Type v} {γ : Type w}
variable (f : Namespace ι κ γ) (r : ι)

/-- Directory `i` has an entry `x` for `j`. -/
def Entry (i : ι) (x : κ) (j : ι) : Prop := ∃ p es, f i = some (.dir p es) ∧ (x, j) ∈ es

/-- Directory `i` has an entry for `j`. -/
def Edge (i j : ι) : Prop := ∃ x, f.Entry i x j

/-- The namespace is a tree with root `r`. -/
structure IsTree : Prop where
  root : ∃ es, f r = some (.dir r es)
  /-- The names in a directory are different. -/
  names : ∀ {i p es}, f i = some (.dir p es) → (es.map Prod.fst).Nodup
  /-- No entry dangles. -/
  target : ∀ {i x j}, f.Entry i x j → ∃ n, f j = some n
  /-- A directory knows its parent. -/
  parent : ∀ {i x j p es}, f.Entry i x j → f j = some (.dir p es) → p = i
  not_root : ∀ {i x}, ¬ f.Entry i x r
  /-- A node has one entry at most. -/
  unique : ∀ {i x j i' x'}, f.Entry i x j → f.Entry i' x' j → i = i' ∧ x = x'
  reach : ∀ {i n}, f i = some n → Relation.ReflTransGen f.Edge r i

variable {f r}

theorem entry_iff {i j p : ι} {x : κ} {es : List (κ × ι)} (h : f i = some (.dir p es)) :
    f.Entry i x j ↔ (x, j) ∈ es := by
  constructor
  · rintro ⟨p', es', h', hmem⟩
    rw [h] at h'
    cases h'
    exact hmem
  · exact fun hmem => ⟨p, es, h, hmem⟩

theorem not_entry_of_file {i j : ι} {x : κ} {c : γ} (h : f i = some (.file c)) :
    ¬ f.Entry i x j := by
  rintro ⟨p, es, h', -⟩
  rw [h] at h'
  cases h'

theorem not_entry_of_none {i j : ι} {x : κ} (h : f i = none) : ¬ f.Entry i x j := by
  rintro ⟨p, es, h', -⟩
  rw [h] at h'
  cases h'

/-- Every node but the root has an entry. -/
theorem IsTree.exists_entry (h : f.IsTree r) {j : ι} {n : Node ι κ γ} (hj : f j = some n)
    (hne : j ≠ r) : ∃ i x, f.Entry i x j := by
  rcases (Relation.ReflTransGen.cases_tail (h.reach hj)) with heq | ⟨i, -, x, hx⟩
  · exact absurd heq hne
  · exact ⟨i, x, hx⟩

/-- The smallest tree. -/
theorem isTree_root (hr : f r = some (.dir r [])) (hf : ∀ i ≠ r, f i = none) : f.IsTree r := by
  have hentry : ∀ {i x j}, ¬ f.Entry i x j := by
    rintro i x j ⟨p, es, hi, hmem⟩
    by_cases hir : i = r
    · subst hir
      rw [hr] at hi
      cases hi
      cases hmem
    · rw [hf i hir] at hi
      cases hi
  refine ⟨⟨_, hr⟩, ?_, ?_, ?_, hentry, ?_, ?_⟩
  · intro i p es hi
    by_cases hir : i = r
    · subst hir
      rw [hr] at hi
      cases hi
      exact List.nodup_nil
    · rw [hf i hir] at hi
      cases hi
  · exact fun h => absurd h hentry
  · exact fun h _ => absurd h hentry
  · exact fun h _ => absurd h hentry
  · intro i n hi
    by_cases hir : i = r
    · subst hir
      exact .refl
    · rw [hf i hir] at hi
      cases hi

/-! ## Paths -/

section Paths

variable [DecidableEq κ]

/-- Look a name up in a directory. -/
def child (f : Namespace ι κ γ) (i : ι) (x : κ) : Option ι :=
  match f i with
  | some (.dir _ es) => es.lookup x
  | _ => none

/-- Follow a path from `i` on. -/
def walk (f : Namespace ι κ γ) : ι → List κ → Option ι
  | i, [] => some i
  | i, x :: xs => (f.child i x).bind fun j => walk f j xs

theorem mem_of_lookup {es : List (κ × ι)} {x : κ} {j : ι} (h : es.lookup x = some j) :
    (x, j) ∈ es := by
  obtain ⟨l₁, l₂, rfl, -⟩ := List.lookup_eq_some_iff.mp h
  simp

theorem lookup_of_mem {es : List (κ × ι)} {x : κ} {j : ι} (hnodup : (es.map Prod.fst).Nodup)
    (h : (x, j) ∈ es) : es.lookup x = some j := by
  induction es with
  | nil => simp at h
  | cons e es ih =>
      obtain ⟨y, k⟩ := e
      rw [List.map_cons, List.nodup_cons] at hnodup
      rw [List.lookup_cons]
      rcases List.mem_cons.mp h with heq | hmem
      · cases heq
        simp
      · have hne : x ≠ y := by
          rintro rfl
          exact hnodup.1 (List.mem_map.mpr ⟨_, hmem, rfl⟩)
        rw [beq_false_of_ne hne]
        exact ih hnodup.2 hmem

theorem entry_of_child {i j : ι} {x : κ} (h : f.child i x = some j) : f.Entry i x j := by
  unfold child at h
  split at h
  · rename_i p es hi
    exact ⟨p, es, hi, mem_of_lookup h⟩
  · cases h

theorem IsTree.child_eq_some (h : f.IsTree r) {i j : ι} {x : κ} :
    f.child i x = some j ↔ f.Entry i x j := by
  refine ⟨entry_of_child, ?_⟩
  rintro ⟨p, es, hi, hmem⟩
  rw [child, hi]
  exact lookup_of_mem (h.names hi) hmem

theorem child_of_file {i : ι} {c : γ} (h : f i = some (.file c)) (x : κ) :
    f.child i x = none := by
  rw [child, h]

theorem child_eq_none {i p : ι} {x : κ} {es : List (κ × ι)} (h : f i = some (.dir p es)) :
    f.child i x = none ↔ x ∉ es.map Prod.fst := by
  rw [child, h]
  simp only [List.lookup_eq_none_iff, bne_iff_ne, List.mem_map, not_exists, not_and]
  exact ⟨fun hne e he hx => hne e he hx.symm, fun hne e he hx => hne e he hx.symm⟩

@[simp] theorem walk_nil (i : ι) : f.walk i [] = some i := rfl

theorem walk_cons (i : ι) (x : κ) (xs : List κ) :
    f.walk i (x :: xs) = (f.child i x).bind fun j => f.walk j xs := rfl

theorem walk_append (i : ι) (xs ys : List κ) :
    f.walk i (xs ++ ys) = (f.walk i xs).bind fun j => f.walk j ys := by
  induction xs generalizing i with
  | nil => rfl
  | cons x xs ih =>
      rw [List.cons_append, walk_cons, walk_cons]
      cases f.child i x with
      | none => rfl
      | some j => exact ih j

theorem walk_concat {i : ι} {xs : List κ} {x : κ} {j : ι} :
    f.walk i (xs ++ [x]) = some j ↔ ∃ k, f.walk i xs = some k ∧ f.child k x = some j := by
  rw [walk_append, Option.bind_eq_some_iff]
  constructor
  · rintro ⟨k, hk, hj⟩
    rw [walk_cons, Option.bind_eq_some_iff] at hj
    obtain ⟨j', hj', hw⟩ := hj
    cases hw
    exact ⟨k, hk, hj'⟩
  · rintro ⟨k, hk, hj⟩
    exact ⟨k, hk, by rw [walk_cons, hj]; rfl⟩

/-- A path does not come back to the root. -/
theorem IsTree.walk_root (h : f.IsTree r) {xs : List κ} (hw : f.walk r xs = some r) : xs = [] := by
  rcases List.eq_nil_or_concat xs with rfl | ⟨ys, y, rfl⟩
  · rfl
  · rw [List.concat_eq_append, walk_concat] at hw
    obtain ⟨k, -, hc⟩ := hw
    exact absurd (entry_of_child hc) h.not_root

/-- In a tree, a path leads to each node, along names of entries. -/
theorem IsTree.exists_walk (h : f.IsTree r) {j : ι} {n : Node ι κ γ} (hj : f j = some n) :
    ∃ xs, f.walk r xs = some j ∧ ∀ x ∈ xs, ∃ i k, f.Entry i x k := by
  have hreach := h.reach hj
  clear hj
  induction hreach with
  | refl => exact ⟨[], rfl, fun x hx => absurd hx List.not_mem_nil⟩
  | @tail k l _ hedge ih =>
      obtain ⟨xs, hxs, hentries⟩ := ih
      obtain ⟨y, hy⟩ := hedge
      refine ⟨xs ++ [y], walk_concat.mpr ⟨k, hxs, h.child_eq_some.mpr hy⟩, fun x hx => ?_⟩
      rcases List.mem_append.mp hx with hx | hx
      · exact hentries x hx
      · obtain rfl := List.mem_singleton.mp hx
        exact ⟨k, l, hy⟩

/-- In a tree, a node is reached by one path. -/
theorem IsTree.walk_unique (h : f.IsTree r) {xs ys : List κ} {i : ι} (hx : f.walk r xs = some i)
    (hy : f.walk r ys = some i) : xs = ys := by
  induction xs using List.reverseRecOn generalizing i ys with
  | nil =>
      cases hx
      exact (h.walk_root hy).symm
  | append_singleton xs x ih =>
      rcases List.eq_nil_or_concat ys with rfl | ⟨ys, y, rfl⟩
      · cases hy
        exact h.walk_root hx
      · rw [List.concat_eq_append] at hy ⊢
        obtain ⟨k, hk, hkx⟩ := walk_concat.mp hx
        obtain ⟨l, hl, hly⟩ := walk_concat.mp hy
        obtain ⟨rfl, rfl⟩ := h.unique (entry_of_child hkx) (entry_of_child hly)
        rw [ih hk hl]

/-- What a client sees: the contents of the file that a path leads to. -/
def content (f : Namespace ι κ γ) (r : ι) (xs : List κ) : Option γ :=
  (f.walk r xs).bind fun i => (f i).bind Node.content?

theorem content_eq_some {xs : List κ} {c : γ} :
    f.content r xs = some c ↔ ∃ i, f.walk r xs = some i ∧ f i = some (.file c) := by
  rw [content, Option.bind_eq_some_iff]
  refine exists_congr fun i => and_congr_right fun _ => ?_
  rw [Option.bind_eq_some_iff]
  constructor
  · rintro ⟨n, hn, hc⟩
    cases n with
    | file c' =>
        cases hc
        exact hn
    | dir p es => cases hc
  · exact fun hn => ⟨_, hn, rfl⟩

end Paths

/-! ## Changes -/

variable [DecidableEq ι]

/-- Link the new leaf `n` as `j`, under the name `x` in directory `p`. -/
def link (f : Namespace ι κ γ) (p : ι) (x : κ) (j : ι) (n : Node ι κ γ) : Namespace ι κ γ :=
  Function.update (Function.update f p ((f p).map (Node.mapEntries (· ++ [(x, j)])))) j (some n)

/-- Remove node `j`, which the entry `x` of directory `p` is for. -/
def unlink [DecidableEq κ] (f : Namespace ι κ γ) (p : ι) (x : κ) (j : ι) : Namespace ι κ γ :=
  Function.update (Function.update f p
    ((f p).map (Node.mapEntries fun es => es.eraseP (·.1 = x)))) j none

/-- Give file `i` the contents `c`. -/
def setFile (f : Namespace ι κ γ) (i : ι) (c : γ) : Namespace ι κ γ :=
  Function.update f i (some (.file c))

section Link

variable {p j pp : ι} {x : κ} {n : Node ι κ γ} {es : List (κ × ι)}

/-- What can be linked below `p`: a file, or a directory without entries. -/
structure IsLeaf (p : ι) (n : Node ι κ γ) : Prop where
  entries : n.entries = []
  parent : ∀ {q es}, n = .dir q es → q = p

theorem link_self (f : Namespace ι κ γ) (p : ι) (x : κ) (j : ι) (n : Node ι κ γ) :
    f.link p x j n j = some n := by
  simp [link]

theorem link_parent (hp : f p = some (.dir pp es)) (hj : f j = none) :
    f.link p x j n p = some (.dir pp (es ++ [(x, j)])) := by
  have hne : p ≠ j := by
    rintro rfl
    simp [hp] at hj
  simp [link, hne, hp, Node.mapEntries]

theorem link_of_ne {i : ι} (hip : i ≠ p) (hij : i ≠ j) : f.link p x j n i = f i := by
  simp [link, hip, hij]

theorem entry_link (hp : f p = some (.dir pp es)) (hj : f j = none) (hn : IsLeaf p n)
    {i k : ι} {y : κ} :
    (f.link p x j n).Entry i y k ↔ f.Entry i y k ∨ (i = p ∧ y = x ∧ k = j) := by
  by_cases hip : i = p
  · subst hip
    rw [entry_iff (link_parent hp hj), entry_iff hp]
    simp
  · by_cases hij : i = j
    · subst hij
      have hno : ¬ (f.link p x i n).Entry i y k := by
        rintro ⟨q, es', h', hmem⟩
        rw [link_self] at h'
        cases h'
        have hnil : es' = [] := hn.entries
        simp [hnil] at hmem
      simp [hno, not_entry_of_none hj, hip]
    · simp [Entry, link_of_ne hip hij, hip]

/-- A directory with a leaf linked is the leaf, the parent with one entry more, or a directory
as it was. -/
theorem dir_of_link (hp : f p = some (.dir pp es)) (hj : f j = none) (hn : IsLeaf p n) {i q : ι}
    {es' : List (κ × ι)} (hi : f.link p x j n i = some (.dir q es')) :
    (i = j ∧ q = p ∧ es' = []) ∨ (i = p ∧ q = pp ∧ es' = es ++ [(x, j)]) ∨
      (i ≠ p ∧ f i = some (.dir q es')) := by
  by_cases hij : i = j
  · subst hij
    rw [link_self] at hi
    cases hi
    exact .inl ⟨rfl, hn.parent rfl, hn.entries⟩
  · by_cases hip : i = p
    · subst hip
      rw [link_parent hp hj] at hi
      cases hi
      exact .inr (.inl ⟨rfl, rfl, rfl⟩)
    · rw [link_of_ne hip hij] at hi
      exact .inr (.inr ⟨hip, hi⟩)

/-- Nodes stay in use. -/
theorem exists_link (hp : f p = some (.dir pp es)) (hj : f j = none) {k : ι} {m : Node ι κ γ}
    (hk : f k = some m) : ∃ m', f.link p x j n k = some m' := by
  by_cases hkj : k = j
  · exact ⟨n, by rw [hkj, link_self]⟩
  · by_cases hkp : k = p
    · subst hkp
      exact ⟨_, link_parent hp hj⟩
    · exact ⟨m, by rw [link_of_ne hkp hkj, hk]⟩

omit [DecidableEq ι] in
/-- No entry is for a node that is not in use. -/
theorem IsTree.not_entry_for (h : f.IsTree r) (hj : f j = none) {i : ι} {y : κ} :
    ¬ f.Entry i y j := by
  intro he
  obtain ⟨m, hm⟩ := h.target he
  simp [hj] at hm

theorem reach_link (hp : f p = some (.dir pp es)) (hj : f j = none) (hn : IsLeaf p n) {i : ι}
    (hi : Relation.ReflTransGen f.Edge r i) :
    Relation.ReflTransGen (f.link p x j n).Edge r i := by
  have hedge : f.Edge ≤ (f.link p x j n).Edge :=
    fun _ _ ⟨y, hy⟩ => ⟨y, (entry_link hp hj hn).mpr (.inl hy)⟩
  exact Relation.ReflTransGen.mono hedge r i hi

theorem IsTree.link (h : f.IsTree r) (hp : f p = some (.dir pp es)) (hj : f j = none)
    (hx : x ∉ es.map Prod.fst) (hn : IsLeaf p n) : (f.link p x j n).IsTree r := by
  have hentry : ∀ {i k y}, (f.link p x j n).Entry i y k ↔
      f.Entry i y k ∨ (i = p ∧ y = x ∧ k = j) := entry_link hp hj hn
  have hjr : j ≠ r := by
    rintro rfl
    obtain ⟨es', hr⟩ := h.root
    simp [hr] at hj
  refine ⟨?_, ?_, ?_, ?_, ?_, ?_, ?_⟩
  · obtain ⟨es', hr⟩ := h.root
    by_cases hrp : r = p
    · subst hrp
      rw [hr] at hp
      cases hp
      exact ⟨_, link_parent hr hj⟩
    · exact ⟨es', by rw [link_of_ne hrp hjr.symm, hr]⟩
  · intro i q es' hi
    rcases dir_of_link hp hj hn hi with ⟨-, -, rfl⟩ | ⟨-, -, rfl⟩ | ⟨-, hold⟩
    · exact List.nodup_nil
    · rw [List.map_append, List.nodup_append]
      refine ⟨h.names hp, by simp, fun a ha b hb => ?_⟩
      rintro rfl
      simp only [List.map_cons, List.map_nil, List.mem_singleton] at hb
      exact hx (hb ▸ ha)
    · exact h.names hold
  · intro i y k hk
    rcases hentry.mp hk with hold | ⟨-, -, rfl⟩
    · obtain ⟨m, hm⟩ := h.target hold
      exact exists_link hp hj hm
    · exact ⟨n, link_self f p x k n⟩
  · intro i y k q es' hk hdir
    rcases hentry.mp hk with hold | ⟨rfl, rfl, rfl⟩
    · rcases dir_of_link hp hj hn hdir with ⟨rfl, -⟩ | ⟨rfl, rfl, -⟩ | ⟨-, hdir⟩
      · exact absurd hold (h.not_entry_for hj)
      · exact h.parent hold hp
      · exact h.parent hold hdir
    · rw [link_self] at hdir
      cases hdir
      exact hn.parent rfl
  · intro i y hk
    rcases hentry.mp hk with hold | ⟨-, -, heq⟩
    · exact h.not_root hold
    · exact hjr heq.symm
  · intro i y k i' y' hk hk'
    rcases hentry.mp hk with hold | ⟨hi, hy, hkj⟩ <;>
      rcases hentry.mp hk' with hold' | ⟨hi', hy', hkj'⟩
    · exact h.unique hold hold'
    · exact absurd (hkj' ▸ hold) (h.not_entry_for hj)
    · exact absurd (hkj ▸ hold') (h.not_entry_for hj)
    · exact ⟨hi.trans hi'.symm, hy.trans hy'.symm⟩
  · intro i m hi
    by_cases hij : i = j
    · subst hij
      exact (reach_link hp hj hn (h.reach hp)).tail ⟨x, hentry.mpr (.inr ⟨rfl, rfl, rfl⟩)⟩
    · by_cases hip : i = p
      · subst hip
        exact reach_link hp hj hn (h.reach hp)
      · rw [link_of_ne hip hij] at hi
        exact reach_link hp hj hn (h.reach hi)

variable [DecidableEq κ]

theorem walk_link (h : f.IsTree r) (hp : f p = some (.dir pp es)) (hj : f j = none)
    (hx : x ∉ es.map Prod.fst) (hn : IsLeaf p n) {xs : List κ} {k : ι} :
    (f.link p x j n).walk r xs = some k ↔
      f.walk r xs = some k ∨ (k = j ∧ ∃ ys, xs = ys ++ [x] ∧ f.walk r ys = some p) := by
  have h' := h.link hp hj hx hn
  have hpj : p ≠ j := by
    rintro rfl
    simp [hp] at hj
  induction xs using List.reverseRecOn generalizing k with
  | nil => simp
  | append_singleton xs y ih =>
      simp only [walk_concat, h'.child_eq_some, h.child_eq_some, entry_link hp hj hn, ih]
      constructor
      · rintro ⟨l, hl | ⟨rfl, ys, rfl, hys⟩, hk | ⟨rfl, rfl, rfl⟩⟩
        · exact .inl ⟨l, hl, hk⟩
        · exact .inr ⟨rfl, xs, rfl, hl⟩
        · exact absurd hk (not_entry_of_none hj)
        · exact absurd rfl hpj
      · rintro (⟨l, hl, hk⟩ | ⟨rfl, ys, heq, hys⟩)
        · exact ⟨l, .inl hl, .inl hk⟩
        · obtain ⟨rfl, hyx⟩ := List.append_inj' heq rfl
          obtain rfl : y = x := by simpa using hyx
          exact ⟨p, .inl hys, .inr ⟨rfl, rfl, rfl⟩⟩

/-- Seen through paths, linking a leaf gives one new path its contents. -/
theorem content_link (h : f.IsTree r) (hp : f p = some (.dir pp es)) (hj : f j = none)
    (hx : x ∉ es.map Prod.fst) (hn : IsLeaf p n) {ps : List κ} (hps : f.walk r ps = some p) :
    (f.link p x j n).content r = Function.update (f.content r) (ps ++ [x]) n.content? := by
  have h' := h.link hp hj hx hn
  have hnew : (f.link p x j n).walk r (ps ++ [x]) = some j :=
    (walk_link h hp hj hx hn).mpr (.inr ⟨rfl, ps, rfl, hps⟩)
  funext xs
  by_cases hxs : xs = ps ++ [x]
  · subst hxs
    rw [Function.update_self, content, hnew]
    simp [link_self]
  · rw [Function.update_of_ne hxs]
    apply Option.ext
    intro c
    rw [content_eq_some, content_eq_some]
    constructor
    · rintro ⟨i, hi, hc⟩
      have hij : i ≠ j := by
        rintro rfl
        exact hxs (h'.walk_unique hi hnew)
      have hip : i ≠ p := by
        rintro rfl
        rw [link_parent hp hj] at hc
        cases hc
      rw [link_of_ne hip hij] at hc
      exact ⟨i, ((walk_link h hp hj hx hn).mp hi).resolve_right fun e => hij e.1, hc⟩
    · rintro ⟨i, hi, hc⟩
      have hij : i ≠ j := by
        rintro rfl
        simp [hj] at hc
      have hip : i ≠ p := by
        rintro rfl
        simp [hp] at hc
      exact ⟨i, (walk_link h hp hj hx hn).mpr (.inl hi), by rw [link_of_ne hip hij, hc]⟩

end Link

section Unlink

variable [DecidableEq κ] {p j : ι} {x : κ} {n : Node ι κ γ}

omit [DecidableEq ι] in
theorem mem_eraseP {es : List (κ × ι)} (hnodup : (es.map Prod.fst).Nodup) {y : κ} {k : ι} :
    (y, k) ∈ es.eraseP (·.1 = x) ↔ (y, k) ∈ es ∧ y ≠ x := by
  induction es with
  | nil => simp
  | cons e es ih =>
      rw [List.map_cons, List.nodup_cons] at hnodup
      by_cases hex : e.1 = x
      · rw [List.eraseP_cons_of_pos (by simpa using hex)]
        constructor
        · intro hmem
          refine ⟨List.mem_cons_of_mem _ hmem, ?_⟩
          rintro rfl
          exact hnodup.1 (List.mem_map.mpr ⟨_, hmem, hex.symm⟩)
        · rintro ⟨hmem, hne⟩
          rcases List.mem_cons.mp hmem with rfl | hmem
          · exact absurd hex hne
          · exact hmem
      · rw [List.eraseP_cons_of_neg (by simpa using hex), List.mem_cons, List.mem_cons,
          ih hnodup.2]
        constructor
        · rintro (rfl | ⟨hmem, hne⟩)
          · exact ⟨.inl rfl, hex⟩
          · exact ⟨.inr hmem, hne⟩
        · rintro ⟨heq | hmem, hne⟩
          · exact .inl heq
          · exact .inr ⟨hmem, hne⟩

omit [DecidableEq ι] in
/-- Where the entry of a name stands does not matter for removing it. -/
theorem eraseP_eq_eraseIdx {es : List (κ × ι)} (hnodup : (es.map Prod.fst).Nodup) {m : Nat}
    (hm : m < es.length) (hx : es[m].1 = x) : es.eraseP (·.1 = x) = es.eraseIdx m := by
  induction es generalizing m with
  | nil => rfl
  | cons e es ih =>
      rw [List.map_cons, List.nodup_cons] at hnodup
      cases m with
      | zero =>
          have hx : e.1 = x := hx
          rw [List.eraseP_cons_of_pos (by simpa using hx), List.eraseIdx_zero, List.tail_cons]
      | succ m =>
          rw [List.length_cons, Nat.succ_lt_succ_iff] at hm
          have hx : es[m].1 = x := hx
          have hne : e.1 ≠ x := fun he =>
            hnodup.1 (he ▸ hx ▸ List.mem_map_of_mem (List.getElem_mem hm))
          rw [List.eraseP_cons_of_neg (by simpa using hne), List.eraseIdx_cons_succ,
            ih hnodup.2 hm hx]

theorem unlink_self (f : Namespace ι κ γ) (p : ι) (x : κ) (j : ι) : f.unlink p x j j = none := by
  simp [unlink]

theorem unlink_of_ne {i : ι} (hip : i ≠ p) (hij : i ≠ j) : f.unlink p x j i = f i := by
  simp [unlink, hip, hij]

/-- The removed node has no entries, and `p` has one for it. -/
structure Removable (f : Namespace ι κ γ) (p : ι) (x : κ) (j : ι) : Prop where
  entry : f.Entry p x j
  leaf : ∀ {k y}, ¬ f.Entry j k y

namespace Removable

omit [DecidableEq ι] [DecidableEq κ] in
theorem ne (h : f.Removable p x j) : p ≠ j := by
  rintro rfl
  exact h.leaf h.entry

theorem unlink_parent (h : f.Removable p x j) {pp : ι} {es : List (κ × ι)}
    (hp : f p = some (.dir pp es)) :
    f.unlink p x j p = some (.dir pp (es.eraseP (·.1 = x))) := by
  simp [unlink, h.ne, hp, Node.mapEntries]

theorem entry_unlink (h : f.Removable p x j) (ht : f.IsTree r) {i k : ι} {y : κ} :
    (f.unlink p x j).Entry i y k ↔ f.Entry i y k ∧ k ≠ j := by
  by_cases hij : i = j
  · subst hij
    simp [not_entry_of_none (unlink_self f p x i), h.leaf]
  · by_cases hip : i = p
    · subst hip
      obtain ⟨pp, es, hp, hmem⟩ := h.entry
      rw [entry_iff (h.unlink_parent hp), entry_iff hp, mem_eraseP (ht.names hp)]
      refine and_congr_right fun hy => not_congr ?_
      constructor
      · rintro rfl
        have hk := (ht.child_eq_some (i := i) (x := y) (j := k)).mpr ⟨pp, es, hp, hy⟩
        have hj := ht.child_eq_some.mpr h.entry
        rw [hk] at hj
        exact Option.some.inj hj
      · rintro rfl
        exact (ht.unique ⟨pp, es, hp, hy⟩ h.entry).2
    · have hsame : (f.unlink p x j).Entry i y k ↔ f.Entry i y k := by
        simp [Entry, unlink_of_ne hip hij]
      rw [hsame]
      refine ⟨fun hk => ⟨hk, ?_⟩, fun hk => hk.1⟩
      rintro rfl
      exact hip (ht.unique hk h.entry).1

/-- A directory that is left is a directory that was there, with the same parent. -/
theorem dir_of_unlink (h : f.Removable p x j) {i pp : ι} {es : List (κ × ι)}
    (hi : f.unlink p x j i = some (.dir pp es)) :
    ∃ es', f i = some (.dir pp es') ∧ (es = es' ∨ es = es'.eraseP (·.1 = x)) := by
  by_cases hij : i = j
  · subst hij
    simp [unlink_self] at hi
  · by_cases hip : i = p
    · subst hip
      obtain ⟨qq, es', hp, -⟩ := h.entry
      rw [h.unlink_parent hp] at hi
      cases hi
      exact ⟨es', hp, .inr rfl⟩
    · rw [unlink_of_ne hip hij] at hi
      exact ⟨es, hi, .inl rfl⟩

/-- Other nodes stay in use. -/
theorem exists_unlink (h : f.Removable p x j) {k : ι} {m : Node ι κ γ} (hk : f k = some m)
    (hkj : k ≠ j) : ∃ m', f.unlink p x j k = some m' := by
  by_cases hkp : k = p
  · subst hkp
    obtain ⟨pp, es, hp, -⟩ := h.entry
    exact ⟨_, h.unlink_parent hp⟩
  · exact ⟨m, by rw [unlink_of_ne hkp hkj, hk]⟩

theorem isTree (h : f.Removable p x j) (ht : f.IsTree r) : (f.unlink p x j).IsTree r := by
  have hentry : ∀ {i k y}, (f.unlink p x j).Entry i y k ↔ f.Entry i y k ∧ k ≠ j :=
    h.entry_unlink ht
  have hjr : j ≠ r := by
    rintro rfl
    exact ht.not_root h.entry
  refine ⟨?_, ?_, ?_, ?_, ?_, ?_, ?_⟩
  · obtain ⟨es, hr⟩ := ht.root
    by_cases hrp : r = p
    · subst hrp
      exact ⟨_, h.unlink_parent hr⟩
    · exact ⟨es, by rw [unlink_of_ne hrp hjr.symm, hr]⟩
  · intro i pp es hi
    obtain ⟨es', hi', rfl | rfl⟩ := h.dir_of_unlink hi
    · exact ht.names hi'
    · exact (ht.names hi').sublist (List.eraseP_sublist.map _)
  · intro i y k hk
    obtain ⟨m, hm⟩ := ht.target (hentry.mp hk).1
    exact h.exists_unlink hm (hentry.mp hk).2
  · intro i y k pp es hk hi
    obtain ⟨es', hi', -⟩ := h.dir_of_unlink hi
    exact ht.parent (hentry.mp hk).1 hi'
  · exact fun hk => ht.not_root (hentry.mp hk).1
  · exact fun hk hk' => ht.unique (hentry.mp hk).1 (hentry.mp hk').1
  · have hreach : ∀ {i}, Relation.ReflTransGen f.Edge r i → i ≠ j →
        Relation.ReflTransGen (f.unlink p x j).Edge r i := by
      intro i hi
      induction hi with
      | refl => exact fun _ => .refl
      | tail _ hedge ih =>
          intro hne
          obtain ⟨y, hy⟩ := hedge
          refine (ih ?_).tail ⟨y, hentry.mpr ⟨hy, hne⟩⟩
          rintro rfl
          exact h.leaf hy
    intro i m hi
    have hij : i ≠ j := by
      rintro rfl
      simp [unlink_self] at hi
    refine hreach ?_ hij
    by_cases hip : i = p
    · subst hip
      obtain ⟨pp, es, hp, -⟩ := h.entry
      exact ht.reach hp
    · rw [unlink_of_ne hip hij] at hi
      exact ht.reach hi

theorem walk_unlink (h : f.Removable p x j) (ht : f.IsTree r) {xs : List κ} {k : ι} :
    (f.unlink p x j).walk r xs = some k ↔ f.walk r xs = some k ∧ k ≠ j := by
  have ht' := h.isTree ht
  have hjr : r ≠ j := by
    rintro rfl
    exact ht.not_root h.entry
  induction xs using List.reverseRecOn generalizing k with
  | nil =>
      simp only [walk_nil, Option.some.injEq]
      refine ⟨fun hk => ⟨hk, hk ▸ hjr⟩, fun hk => hk.1⟩
  | append_singleton xs y ih =>
      simp only [walk_concat, ht'.child_eq_some, ht.child_eq_some, h.entry_unlink ht, ih]
      constructor
      · rintro ⟨l, ⟨hl, -⟩, hk, hkj⟩
        exact ⟨⟨l, hl, hk⟩, hkj⟩
      · rintro ⟨⟨l, hl, hk⟩, hkj⟩
        refine ⟨l, ⟨hl, ?_⟩, hk, hkj⟩
        rintro rfl
        exact h.leaf hk

/-- Seen through paths, removing a leaf takes the contents of one path away. -/
theorem content_unlink (h : f.Removable p x j) (ht : f.IsTree r) {ps : List κ}
    (hps : f.walk r ps = some p) :
    (f.unlink p x j).content r = Function.update (f.content r) (ps ++ [x]) none := by
  have hold : f.walk r (ps ++ [x]) = some j :=
    walk_concat.mpr ⟨p, hps, ht.child_eq_some.mpr h.entry⟩
  funext xs
  apply Option.ext
  intro c
  by_cases hxs : xs = ps ++ [x]
  · subst hxs
    rw [Function.update_self, content_eq_some]
    simp [h.walk_unlink ht, hold]
  · rw [Function.update_of_ne hxs, content_eq_some, content_eq_some]
    simp only [h.walk_unlink ht]
    refine exists_congr fun i => ?_
    constructor
    · rintro ⟨⟨hi, hij⟩, hc⟩
      have hip : i ≠ p := by
        rintro rfl
        obtain ⟨pp, es, hp, -⟩ := h.entry
        rw [h.unlink_parent hp] at hc
        cases hc
      exact ⟨hi, by rwa [unlink_of_ne hip hij] at hc⟩
    · rintro ⟨hi, hc⟩
      have hij : i ≠ j := by
        rintro rfl
        exact hxs (ht.walk_unique hi hold)
      have hip : i ≠ p := by
        rintro rfl
        exact not_entry_of_file hc h.entry
      exact ⟨⟨hi, hij⟩, by rwa [unlink_of_ne hip hij]⟩

end Removable

end Unlink

section SetFile

variable {i : ι} {c c₀ : γ}

theorem entry_setFile (hi : f i = some (.file c₀)) {k l : ι} {y : κ} :
    (f.setFile i c).Entry k y l ↔ f.Entry k y l := by
  by_cases hki : k = i
  · subst hki
    have hc : f.setFile k c k = some (.file c) := by simp [setFile]
    simp [not_entry_of_file hi, not_entry_of_file hc]
  · simp [Entry, setFile, hki]

theorem dir_setFile (hi : f i = some (.file c₀)) {k p : ι} {es : List (κ × ι)} :
    f.setFile i c k = some (.dir p es) ↔ f k = some (.dir p es) := by
  by_cases hki : k = i
  · subst hki
    simp [setFile, hi]
  · simp [setFile, hki]

theorem IsTree.setFile (h : f.IsTree r) (hi : f i = some (.file c₀)) :
    (f.setFile i c).IsTree r where
  root := h.root.imp fun _ => (dir_setFile hi).mpr
  names hk := h.names ((dir_setFile hi).mp hk)
  target hk := by
    obtain ⟨n, hn⟩ := h.target ((entry_setFile hi).mp hk)
    rw [Namespace.setFile, Function.update_apply]
    split
    · exact ⟨_, rfl⟩
    · exact ⟨n, hn⟩
  parent hk hd := h.parent ((entry_setFile hi).mp hk) ((dir_setFile hi).mp hd)
  not_root hk := h.not_root ((entry_setFile hi).mp hk)
  unique hk hk' := h.unique ((entry_setFile hi).mp hk) ((entry_setFile hi).mp hk')
  reach := by
    intro k n hk
    have hold : ∃ n, f k = some n := by
      rw [Namespace.setFile, Function.update_apply] at hk
      split at hk
      · rename_i heq
        exact ⟨_, heq ▸ hi⟩
      · exact ⟨n, hk⟩
    obtain ⟨m, hm⟩ := hold
    have hedge : f.Edge ≤ (f.setFile i c).Edge :=
      fun _ _ ⟨y, hy⟩ => ⟨y, (entry_setFile hi).mpr hy⟩
    exact Relation.ReflTransGen.mono hedge r k (h.reach hm)

variable [DecidableEq κ]

theorem walk_setFile (hi : f i = some (.file c₀)) (k : ι) (xs : List κ) :
    (f.setFile i c).walk k xs = f.walk k xs := by
  have hchild : ∀ (k : ι) (x : κ), (f.setFile i c).child k x = f.child k x := by
    intro k x
    by_cases hki : k = i
    · subst hki
      rw [child_of_file hi, child_of_file (c := c) (by simp [setFile])]
    · simp [child, setFile, hki]
  induction xs generalizing k with
  | nil => rfl
  | cons x xs ih => simp only [walk_cons, hchild, ih]

/-- Seen through paths, writing a file changes the contents of one path. -/
theorem content_setFile (h : f.IsTree r) (hi : f i = some (.file c₀)) {ps : List κ}
    (hps : f.walk r ps = some i) :
    (f.setFile i c).content r = Function.update (f.content r) ps (some c) := by
  funext xs
  rw [content, walk_setFile hi]
  by_cases hxs : xs = ps
  · subst hxs
    simp [hps, setFile, Node.content?]
  · rw [Function.update_of_ne hxs, content]
    cases hw : f.walk r xs with
    | none => rfl
    | some k =>
        have hki : k ≠ i := by
          rintro rfl
          exact hxs (h.walk_unique hw hps)
        simp [setFile, hki]

end SetFile

/-! ## Order -/

/-- The names in each directory are in order, where its entries stand. -/
def Ordered (rel : κ → κ → Prop) (f : Namespace ι κ γ) : Prop :=
  ∀ i p es, f i = some (.dir p es) → (es.map Prod.fst).Pairwise rel

section Ordered

variable {rel : κ → κ → Prop} {i p j pp : ι} {x : κ} {n : Node ι κ γ} {es : List (κ × ι)}

omit [DecidableEq ι] in
theorem ordered_of_not_entry (h : ∀ i x j, ¬ f.Entry i x j) : f.Ordered rel := by
  intro i p es hi
  cases es with
  | nil => exact .nil
  | cons e es => exact absurd ⟨p, _, hi, List.mem_cons_self⟩ (h i e.1 e.2)

/-- A new entry stands behind the others. -/
theorem ordered_link (hp : f p = some (.dir pp es)) (hj : f j = none) (hn : IsLeaf p n) :
    (f.link p x j n).Ordered rel ↔ f.Ordered rel ∧ ∀ y ∈ es.map Prod.fst, rel y x := by
  constructor
  · intro h
    have hnew := h p pp _ (link_parent hp hj)
    rw [List.map_append, List.pairwise_append] at hnew
    refine ⟨fun i q es' hi => ?_, fun y hy => hnew.2.2 y hy x (by simp)⟩
    have hij : i ≠ j := by
      rintro rfl
      simp [hj] at hi
    by_cases hip : i = p
    · subst hip
      rw [hp] at hi
      cases hi
      exact hnew.1
    · exact h i q es' (by rw [link_of_ne hip hij, hi])
  · rintro ⟨h, hx⟩ i q es' hi
    rcases dir_of_link hp hj hn hi with ⟨-, -, rfl⟩ | ⟨-, -, rfl⟩ | ⟨-, hold⟩
    · exact .nil
    · rw [List.map_append, List.pairwise_append]
      refine ⟨h _ _ _ hp, by simp, fun y hy z hz => ?_⟩
      obtain rfl : z = x := by simpa using hz
      exact hx y hy
    · exact h i q es' hold

theorem ordered_setFile {c c₀ : γ} (hi : f i = some (.file c₀)) :
    (f.setFile i c).Ordered rel ↔ f.Ordered rel := by
  simp only [Ordered, dir_setFile hi]

/-- Removing an entry leaves the others where they stand. -/
theorem Removable.ordered [DecidableEq κ] (h : f.Removable p x j) (ho : f.Ordered rel) :
    (f.unlink p x j).Ordered rel := by
  intro i q es hi
  obtain ⟨es', hi', rfl | rfl⟩ := h.dir_of_unlink hi
  · exact ho i q _ hi'
  · exact (ho i q es' hi').sublist (List.eraseP_sublist.map _)

end Ordered

/-! ## Growth -/

/-- Each directory is still there, and has its entries in front of new ones. -/
def Grows (f f' : Namespace ι κ γ) : Prop :=
  ∀ i p es, f i = some (.dir p es) → ∃ es', f' i = some (.dir p es') ∧ es <+: es'

section Growth

variable {f' f'' : Namespace ι κ γ} {p j pp : ι} {x : κ} {es : List (κ × ι)}

omit [DecidableEq ι] in
theorem Grows.refl (f : Namespace ι κ γ) : f.Grows f :=
  fun _ _ es hi => ⟨es, hi, List.prefix_rfl⟩

omit [DecidableEq ι] in
theorem Grows.trans (h : f.Grows f') (h' : f'.Grows f'') : f.Grows f'' := by
  intro i p es hi
  obtain ⟨es', hi', hes⟩ := h i p es hi
  obtain ⟨es'', hi'', hes'⟩ := h' i p es' hi'
  exact ⟨es'', hi'', hes.trans hes'⟩

theorem grows_link (x : κ) (n : Node ι κ γ) (hj : f j = none) : f.Grows (f.link p x j n) := by
  intro i q es hi
  by_cases hip : i = p
  · subst hip
    exact ⟨_, link_parent hi hj, List.prefix_append _ _⟩
  · have hij : i ≠ j := by
      rintro rfl
      simp [hj] at hi
    exact ⟨es, by rw [link_of_ne hip hij, hi], List.prefix_rfl⟩

theorem grows_setFile {c c₀ : γ} (hi : f j = some (.file c₀)) : f.Grows (f.setFile j c) :=
  fun _ _ es hd => ⟨es, (dir_setFile hi).mpr hd, List.prefix_rfl⟩

variable [DecidableEq κ]

omit [DecidableEq ι] in
/-- Names that are found are found, since new entries stand behind. -/
theorem Grows.child (h : f.Grows f') (hx : f.child p x = some j) : f'.child p x = some j := by
  unfold Namespace.child at hx
  split at hx
  · rename_i q es hp
    obtain ⟨es', hp', l, rfl⟩ := h p q es hp
    rw [Namespace.child, hp']
    dsimp only
    rw [List.lookup_append, hx]
    rfl
  · cases hx

/-- A name that was not there leads to the node that was linked. -/
theorem child_link (hp : f p = some (.dir pp es)) (hj : f j = none) (hx : f.child p x = none)
    (n : Node ι κ γ) : (f.link p x j n).child p x = some j := by
  rw [child, hp] at hx
  rw [child, link_parent hp hj]
  dsimp only at hx ⊢
  simp [List.lookup_append, hx]

end Growth

end Namespace
