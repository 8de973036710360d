import Mathlib.Data.List.Sort
import Mathlib.Logic.Function.Basic
import Mathlib.Tactic.Common

/-!
# The free list of a bitmap

A bitmap marks which of the numbers below `n` are in use.  An allocator that always takes
the lowest clear bit behaves like one that keeps the clear bits in an ascending list and
takes its head; `free` is that list, and `head_free` and `free_take` say so.

The search itself is over machine words, that is, a search inside a search;
`scan_eq_some` and `scan_eq_none` make one search of the two.
-/

namespace FreeList

/-- The numbers below `n` whose bit is clear, in ascending order. -/
def free (bit : Nat → Bool) (n : Nat) : List Nat := (List.range n).filter fun i => !bit i

variable {bit : Nat → Bool} {n : Nat}

@[simp] theorem mem_free {i : Nat} : i ∈ free bit n ↔ i < n ∧ bit i = false := by
  simp [free]

theorem nodup_free : (free bit n).Nodup := List.nodup_range.filter _

theorem sorted_free : (free bit n).Pairwise (· < ·) := List.pairwise_lt_range.filter _

theorem free_eq_nil_iff : free bit n = [] ↔ ∀ i < n, bit i = true := by
  simp [free]

/-- The head of the free list is the lowest clear bit. -/
theorem head_free {i : Nat} {is : List Nat} (h : free bit n = i :: is) :
    i < n ∧ bit i = false ∧ ∀ j < i, bit j = true := by
  have hi : i ∈ free bit n := by
    rw [h]
    exact List.mem_cons_self
  refine ⟨(mem_free.mp hi).1, (mem_free.mp hi).2, fun j hj => ?_⟩
  by_contra hbit
  have hlt := (mem_free.mp hi).1
  have hmem : j ∈ free bit n := mem_free.mpr ⟨by omega, by simpa using hbit⟩
  have hsorted : (i :: is).Pairwise (· < ·) := h ▸ sorted_free
  rw [h, List.mem_cons] at hmem
  rcases hmem with rfl | hmem
  · omega
  · have hlt := List.rel_of_pairwise_cons hsorted hmem
    omega

/-- The lowest clear bit, if it is below `n`, is the head of the free list. -/
theorem exists_cons_of_lowest {i : Nat} (hi : i < n) (hclear : bit i = false)
    (hlow : ∀ j < i, bit j = true) : ∃ is, free bit n = i :: is := by
  cases h : free bit n with
  | nil =>
      have hset := free_eq_nil_iff.mp h i hi
      simp [hclear] at hset
  | cons k ks =>
      obtain ⟨-, hk, hks⟩ := head_free h
      rcases Nat.lt_trichotomy i k with hlt | rfl | hlt
      · exact absurd (hks i hlt) (by simp [hclear])
      · exact ⟨ks, rfl⟩
      · simp [hlow k hlt] at hk

/-- Taking a number out of the list is setting its bit. -/
theorem free_update_true (i : Nat) :
    free (Function.update bit i true) n = (free bit n).filter (· ≠ i) := by
  rw [free, free, List.filter_filter]
  apply List.filter_congr
  intro j _
  by_cases h : j = i
  · subst h
    simp
  · simp [h]

/-- Allocation: the head is taken and the tail stays free. -/
theorem free_take {i : Nat} {is : List Nat} (h : free bit n = i :: is) :
    free (Function.update bit i true) n = is := by
  have hnodup : (i :: is).Nodup := h ▸ nodup_free
  have hne : ∀ j ∈ is, decide (j ≠ i) = true := by
    intro j hj
    have : j ≠ i := fun e => (List.nodup_cons.mp hnodup).1 (e ▸ hj)
    simpa using this
  rw [free_update_true, h, List.filter_cons_of_neg (by simp), List.filter_eq_self.mpr hne]

/-! ## Searches -/

/-- A search through a range finds the first index it can. -/
theorem findSome?_range_eq_some {α : Type*} {f : Nat → Option α} {b : α} :
    (List.range n).findSome? f = some b ↔ ∃ i < n, f i = some b ∧ ∀ j < i, f j = none := by
  induction n with
  | zero => simp
  | succ n ih =>
      rw [List.range_succ, List.findSome?_append, Option.or_eq_some_iff, ih]
      constructor
      · rintro (⟨i, hi, hf⟩ | ⟨hnone, hf⟩)
        · exact ⟨i, by omega, hf⟩
        · refine ⟨n, by omega, by simpa using hf, fun j hj => ?_⟩
          rw [List.findSome?_eq_none_iff] at hnone
          exact hnone j (List.mem_range.mpr hj)
      · rintro ⟨i, hi, hf, hlow⟩
        rcases Nat.lt_or_eq_of_le (Nat.le_of_lt_succ hi) with hlt | rfl
        · exact .inl ⟨i, hlt, hf, hlow⟩
        · refine .inr ⟨?_, by simpa using hf⟩
          rw [List.findSome?_eq_none_iff]
          exact fun j hj => hlow j (List.mem_range.mp hj)

/-- Searching `m` words of `c` bits each, one after the other. -/
@[irreducible] def scan (bit : Nat → Bool) (m c : Nat) : Option Nat :=
  (List.range m).findSome? fun j => (List.range c).findSome? fun k =>
    if bit (c * j + k) then none else some (c * j + k)

variable {m c : Nat}

theorem scan_eq_some {i : Nat} (hc : 0 < c) :
    scan bit m c = some i ↔ i < m * c ∧ bit i = false ∧ ∀ j < i, bit j = true := by
  have hinner : ∀ j i, ((List.range c).findSome? fun k =>
      if bit (c * j + k) then none else some (c * j + k)) = some i ↔
      i / c = j ∧ bit i = false ∧ ∀ i', i' / c = j → i' < i → bit i' = true := by
    intro j i
    rw [findSome?_range_eq_some]
    constructor
    · rintro ⟨k, hk, hf, hlow⟩
      split at hf
      · cases hf
      · rename_i hbit
        cases hf
        refine ⟨by rw [Nat.mul_add_div hc, Nat.div_eq_of_lt hk, Nat.add_zero], by simpa using hbit,
          fun i' hj' hi' => ?_⟩
        have hdecomp : c * j + i' % c = i' := by rw [← hj', Nat.div_add_mod]
        have hset := hlow (i' % c) (by omega)
        rw [hdecomp] at hset
        simpa using hset
    · rintro ⟨rfl, hbit, hlow⟩
      refine ⟨i % c, Nat.mod_lt _ hc, by simp [Nat.div_add_mod, hbit], fun k hk => ?_⟩
      have hkc : k < c := hk.trans (Nat.mod_lt _ hc)
      have hlt : c * (i / c) + k < i := by
        have := Nat.div_add_mod i c
        omega
      rw [hlow _ (by rw [Nat.mul_add_div hc, Nat.div_eq_of_lt hkc, Nat.add_zero]) hlt, if_pos rfl]
  have hnone : ∀ j, ((List.range c).findSome? fun k =>
      if bit (c * j + k) then none else some (c * j + k)) = none ↔
      ∀ i, i / c = j → bit i = true := by
    intro j
    rw [List.findSome?_eq_none_iff]
    constructor
    · rintro h i rfl
      have hset := h (i % c) (List.mem_range.mpr (Nat.mod_lt _ hc))
      simpa [Nat.div_add_mod] using hset
    · intro h k hk
      have hkc : k < c := List.mem_range.mp hk
      rw [h _ (by rw [Nat.mul_add_div hc, Nat.div_eq_of_lt hkc, Nat.add_zero]), if_pos rfl]
  rw [scan, findSome?_range_eq_some]
  constructor
  · rintro ⟨j, hj, hf, hlow⟩
    obtain ⟨rfl, hbit, hin⟩ := (hinner j i).mp hf
    refine ⟨(Nat.div_lt_iff_lt_mul hc).mp hj, hbit, fun i' hi' => ?_⟩
    rcases Nat.lt_or_eq_of_le (Nat.div_le_div_right (c := c) (Nat.le_of_lt hi')) with hlt | heq
    · exact (hnone _).mp (hlow _ hlt) i' rfl
    · exact hin i' heq hi'
  · rintro ⟨hi, hbit, hlow⟩
    refine ⟨i / c, (Nat.div_lt_iff_lt_mul hc).mpr hi, (hinner _ _).mpr ⟨rfl, hbit,
      fun i' _ hi' => hlow i' hi'⟩, fun j hj => (hnone j).mpr fun i' hi' => hlow i' ?_⟩
    subst hi'
    exact Nat.lt_of_div_lt_div hj

theorem scan_eq_none (hc : 0 < c) : scan bit m c = none ↔ ∀ i < m * c, bit i = true := by
  constructor
  · intro h i hi
    by_contra hbit
    have hfree : i ∈ free bit (m * c) := mem_free.mpr ⟨hi, by simpa using hbit⟩
    cases hl : free bit (m * c) with
    | nil => simp [hl] at hfree
    | cons k ks =>
        have hk := (scan_eq_some hc).mpr (head_free hl)
        simp [h] at hk
  · intro h
    cases hs : scan bit m c with
    | none => rfl
    | some i =>
        obtain ⟨hi, hbit, -⟩ := (scan_eq_some hc).mp hs
        simp [h i hi] at hbit

end FreeList
