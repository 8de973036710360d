import Mathlib.Data.List.Nodup
import Mathlib.Logic.Function.Basic
import Mathlib.Tactic.Common

/-!
# Exact ownership

Cells `δ` are handed out to owners `ι`, and a map of used cells is kept beside.  `Owned`
says that the map is exact: a used cell has one owner, who has it once, and an unused
cell has none.

Taking cells and giving cells back (`Owned.take`, `Owned.give`) are one operation: an owner's
list is replaced (`Owned.update`).  Which cells that makes used is the only thing to check.
-/

variable {ι δ : Type*}

/-- The cells marked in `used` are exactly those owned, each by one owner, once. -/
structure Owned (used : δ → Bool) (own : ι → List δ) : Prop where
  used_iff : ∀ c, used c = true ↔ ∃ i, c ∈ own i
  nodup : ∀ i, (own i).Nodup
  unique : ∀ {i j c}, c ∈ own i → c ∈ own j → i = j

namespace Owned

variable {used used' : δ → Bool} {own : ι → List δ}

theorem used_of_mem (h : Owned used own) {i : ι} {c : δ} (hc : c ∈ own i) : used c = true :=
  (h.used_iff c).mpr ⟨i, hc⟩

theorem notMem_of_unused (h : Owned used own) {c : δ} (hc : used c = false) (i : ι) :
    c ∉ own i := by
  intro hmem
  have := h.used_of_mem hmem
  simp [hc] at this

/-- One owner's cells are replaced by `cells`, which are its own or unused ones. -/
theorem update [DecidableEq ι] (h : Owned used own) {i : ι} {cells : List δ}
    (hnodup : cells.Nodup) (hcells : ∀ c ∈ cells, c ∈ own i ∨ used c = false)
    (hused : ∀ c, used' c = true ↔ c ∈ cells ∨ (used c = true ∧ c ∉ own i)) :
    Owned used' (Function.update own i cells) := by
  refine ⟨fun c => ?_, fun j => ?_, fun {j k c} hj hk => ?_⟩
  · rw [hused]
    constructor
    · rintro (hc | ⟨hc, hi⟩)
      · exact ⟨i, by simpa using hc⟩
      · obtain ⟨j, hj⟩ := (h.used_iff c).mp hc
        have hne : j ≠ i := by
          rintro rfl
          exact hi hj
        exact ⟨j, by simpa [hne] using hj⟩
    · rintro ⟨j, hj⟩
      by_cases hji : j = i
      · subst hji
        exact .inl (by simpa using hj)
      · rw [Function.update_of_ne hji] at hj
        exact .inr ⟨h.used_of_mem hj, fun hi => hji (h.unique hj hi)⟩
  · by_cases hji : j = i
    · subst hji
      simpa using hnodup
    · rw [Function.update_of_ne hji]
      exact h.nodup j
  · -- a cell of `cells` is owned by nobody else
    have hother : ∀ {j}, j ≠ i → c ∈ cells → c ∉ own j := by
      intro j hji hc hj
      rcases hcells c hc with hi | hfree
      · exact hji (h.unique hj hi)
      · exact h.notMem_of_unused hfree j hj
    by_cases hji : j = i <;> by_cases hki : k = i
    · rw [hji, hki]
    · subst hji
      rw [Function.update_self] at hj
      rw [Function.update_of_ne hki] at hk
      exact absurd hk (hother hki hj)
    · subst hki
      rw [Function.update_self] at hk
      rw [Function.update_of_ne hji] at hj
      exact absurd hj (hother hji hk)
    · rw [Function.update_of_ne hji] at hj
      rw [Function.update_of_ne hki] at hk
      exact h.unique hj hk

/-- An owner takes unused cells. -/
theorem take [DecidableEq ι] (h : Owned used own) {i : ι} {cells : List δ}
    (hnodup : cells.Nodup) (hfree : ∀ c ∈ cells, used c = false)
    (hused : ∀ c, used' c = true ↔ c ∈ cells ∨ used c = true) :
    Owned used' (Function.update own i (own i ++ cells)) := by
  refine h.update ?_ (fun c hc => ?_) fun c => ?_
  · refine List.nodup_append.mpr ⟨h.nodup i, hnodup, ?_⟩
    rintro c hi _ hc rfl
    exact h.notMem_of_unused (hfree c hc) i hi
  · exact (List.mem_append.mp hc).imp_right (hfree c)
  · rw [hused, List.mem_append]
    constructor
    · rintro (hc | hc)
      · exact .inl (.inr hc)
      · by_cases hi : c ∈ own i
        · exact .inl (.inl hi)
        · exact .inr ⟨hc, hi⟩
    · rintro ((hi | hc) | ⟨hc, -⟩)
      · exact .inr (h.used_of_mem hi)
      · exact .inl hc
      · exact .inr hc

/-- An owner keeps some of its cells, in their order, and gives the others back. -/
theorem give [DecidableEq ι] (h : Owned used own) {i : ι} {cells : List δ}
    (hsub : cells.Sublist (own i))
    (hused : ∀ c, used' c = true ↔ used c = true ∧ (c ∈ own i → c ∈ cells)) :
    Owned used' (Function.update own i cells) := by
  refine h.update (hsub.nodup (h.nodup i)) (fun c hc => .inl (hsub.subset hc)) fun c => ?_
  rw [hused]
  constructor
  · rintro ⟨hc, hkept⟩
    by_cases hi : c ∈ own i
    · exact .inl (hkept hi)
    · exact .inr ⟨hc, hi⟩
  · rintro (hc | ⟨hc, hi⟩)
    · exact ⟨h.used_of_mem (hsub.subset hc), fun _ => hc⟩
    · exact ⟨hc, fun hin => absurd hin hi⟩

end Owned
