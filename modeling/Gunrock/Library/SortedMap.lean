import Mathlib.Algebra.Order.BigOperators.Group.List
import Mathlib.Algebra.Order.Ring.Nat
import Mathlib.Order.Basic
import Mathlib.Tactic.Common

/-!
# Maps that are iterated in order

A map as the list of its entries, sorted by their keys, with no key twice.  A program that
iterates over such a map sees its entries in this order, so the map that it gets when it sets
the entries one after the other is the one that it has iterated over (`setAll_entries`).
-/

universe u v

/-- A map from `κ` to `ν`. -/
@[ext] structure SortedMap (κ : Type u) (ν : Type v) [LT κ] where
  entries : List (κ × ν)
  sorted : entries.Pairwise fun e e' => e.1 < e'.1

namespace SortedMap

variable {κ : Type u} {ν : Type v} [LT κ] [DecidableLT κ] {k : κ} {v : ν} {e : κ × ν}
  {l : List (κ × ν)}

/-- The map with no entries. -/
def empty : SortedMap κ ν := ⟨[], .nil⟩

/-- Set the value of a key in a list of entries. -/
def insertEntry (k : κ) (v : ν) : List (κ × ν) → List (κ × ν)
  | [] => [(k, v)]
  | e :: l =>
    if k < e.1 then (k, v) :: e :: l
    else if e.1 < k then e :: insertEntry k v l
    else (k, v) :: l

theorem eq_or_mem_of_mem_insertEntry (h : e ∈ insertEntry k v l) : e = (k, v) ∨ e ∈ l := by
  induction l with
  | nil => exact .inl (List.mem_singleton.mp h)
  | cons e' l ih =>
      rw [insertEntry] at h
      split at h
      · exact List.mem_cons.mp h
      · split at h
        · rcases List.mem_cons.mp h with rfl | h
          · exact .inr List.mem_cons_self
          · exact (ih h).imp_right (List.mem_cons_of_mem e')
        · exact (List.mem_cons.mp h).imp_right (List.mem_cons_of_mem e')

/-- A key behind all others is set at the end. -/
theorem insertEntry_of_lt [Std.Asymm (α := κ) (· < ·)] (h : ∀ e ∈ l, e.1 < k) :
    insertEntry k v l = l ++ [(k, v)] := by
  induction l with
  | nil => rfl
  | cons e l ih =>
      obtain ⟨he, h⟩ := List.forall_mem_cons.mp h
      rw [insertEntry, if_neg (Std.Asymm.asymm _ _ he), if_pos he, ih h, List.cons_append]

/-- An entry adds its own weight at most: it may replace one. -/
theorem sum_insertEntry_le (w : κ × ν → Nat) :
    ((insertEntry k v l).map w).sum ≤ (l.map w).sum + w (k, v) := by
  induction l with
  | nil => simp [insertEntry]
  | cons e l ih =>
      rw [insertEntry]
      split
      · simp only [List.map_cons, List.sum_cons]
        omega
      · split
        · simp only [List.map_cons, List.sum_cons]
          omega
        · simp only [List.map_cons, List.sum_cons]
          omega

theorem mem_insertEntry (k : κ) (v : ν) (l : List (κ × ν)) : (k, v) ∈ insertEntry k v l := by
  induction l with
  | nil => exact List.mem_singleton_self _
  | cons e l ih =>
      rw [insertEntry]
      split
      · exact List.mem_cons_self
      · split
        · exact List.mem_cons_of_mem _ ih
        · exact List.mem_cons_self

omit [DecidableLT κ] in
/-- A key has one value. -/
theorem eq_of_mem [LE κ] [Std.LawfulOrderLT κ] {m : SortedMap κ ν} {e' : κ × ν}
    (he : e ∈ m.entries) (he' : e' ∈ m.entries) (hk : e.1 = e'.1) : e = e' := by
  have hne : ∀ a b : κ × ν, a.1 < b.1 → a.1 ≠ b.1 := fun a b hlt heq =>
    Std.lt_irrefl (heq ▸ hlt)
  refine List.Pairwise.forall_of_forall_of_flip (R := fun a b => a.1 = b.1 → a = b)
    (fun a _ _ => rfl) (m.sorted.imp fun hlt heq => absurd heq (hne _ _ hlt))
    (m.sorted.imp fun hlt heq => absurd heq.symm (hne _ _ hlt)) he he' hk

omit [DecidableLT κ] in
/-- Take a key away. -/
def erase [DecidableEq κ] (m : SortedMap κ ν) (k : κ) : SortedMap κ ν :=
  ⟨m.entries.filter (·.1 ≠ k), m.sorted.filter _⟩

variable [LE κ] [Std.IsLinearOrder κ] [Std.LawfulOrderLT κ]

theorem sorted_insertEntry (h : l.Pairwise fun e e' => e.1 < e'.1) :
    (insertEntry k v l).Pairwise fun e e' => e.1 < e'.1 := by
  induction l with
  | nil => exact List.pairwise_singleton _ _
  | cons e l ih =>
      obtain ⟨he, hl⟩ := List.pairwise_cons.mp h
      rw [insertEntry]
      split
      · rename_i hlt
        refine List.pairwise_cons.mpr ⟨fun e' he' => ?_, h⟩
        rcases List.mem_cons.mp he' with rfl | he'
        · exact hlt
        · exact Std.lt_trans hlt (he e' he')
      · rename_i hle
        split
        · rename_i hlt
          refine List.pairwise_cons.mpr ⟨fun e' he' => ?_, ih hl⟩
          rcases eq_or_mem_of_mem_insertEntry he' with rfl | he'
          · exact hlt
          · exact he e' he'
        · rename_i hge
          obtain rfl : k = e.1 := Std.le_antisymm (Std.not_lt.mp hge) (Std.not_lt.mp hle)
          exact List.pairwise_cons.mpr ⟨he, hl⟩

/-- A key that is set stays. -/
theorem exists_mem_insertEntry (h : ∃ v', (k, v') ∈ l) (k' : κ) (v : ν) :
    ∃ v', (k, v') ∈ insertEntry k' v l := by
  by_cases hk : k' = k
  · exact ⟨v, hk ▸ mem_insertEntry k' v l⟩
  · obtain ⟨v', h⟩ := h
    refine ⟨v', ?_⟩
    induction l with
    | nil => cases h
    | cons e l ih =>
        rw [insertEntry]
        split
        · exact List.mem_cons_of_mem _ h
        · rename_i hle
          split
          · rcases List.mem_cons.mp h with rfl | h
            · exact List.mem_cons_self
            · exact List.mem_cons_of_mem _ (ih h)
          · rename_i hge
            rcases List.mem_cons.mp h with rfl | h
            · exact absurd (Std.le_antisymm (Std.not_lt.mp hge) (Std.not_lt.mp hle)) hk
            · exact List.mem_cons_of_mem _ h

/-- Set the value of a key. -/
def insert (m : SortedMap κ ν) (k : κ) (v : ν) : SortedMap κ ν :=
  ⟨insertEntry k v m.entries, sorted_insertEntry m.sorted⟩

/-- Set the values of the entries, one after the other. -/
def setAll (m : SortedMap κ ν) (l : List (κ × ν)) : SortedMap κ ν :=
  l.foldl (fun m e => m.insert e.1 e.2) m

theorem entries_setAll_of_sorted {m : SortedMap κ ν}
    (h : (m.entries ++ l).Pairwise fun e e' => e.1 < e'.1) :
    (m.setAll l).entries = m.entries ++ l := by
  induction l generalizing m with
  | nil => exact (List.append_nil _).symm
  | cons e l ih =>
      have hlt : ∀ e' ∈ m.entries, e'.1 < e.1 := fun e' he' =>
        (List.pairwise_append.mp h).2.2 e' he' e List.mem_cons_self
      have hinsert : (m.insert e.1 e.2).entries = m.entries ++ [e] := insertEntry_of_lt hlt
      rw [List.append_cons, ← hinsert] at h
      rw [setAll, List.foldl_cons]
      refine (ih h).trans ?_
      rw [hinsert, ← List.append_cons]

/-- The entries of a map, set in an empty one, make the map. -/
theorem setAll_entries (m : SortedMap κ ν) : empty.setAll m.entries = m :=
  SortedMap.ext (entries_setAll_of_sorted m.sorted)

end SortedMap
