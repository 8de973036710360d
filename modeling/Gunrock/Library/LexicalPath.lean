import Mathlib.Data.List.Induction
import Mathlib.Tactic.Common

/-!
# Lexical resolution of paths

A path is a list of steps: stay, go up, or go down along a name.  Walking it over the names
alone, without a file system, ends at a `Place`.  From the root there is no way up; from a
directory that is not known otherwise, levels above it are counted.

Where a path leads from one place is where it leads from any (`Place.foldl_walk`): it climbs
some levels in all, and goes down some names from there.  So it stays below the place it
started from just when it goes down again along the names that it came up through
(`Place.below_shift`).
-/

variable {α : Type*}

/-- What a component of a path means. -/
inductive PathStep (α : Type*) where
  | stay
  | up
  | down (name : α)

/-- `ups` levels above where paths start, and from there down along `names`, the last of
them first. -/
@[ext] structure Place (α : Type*) where
  /-- Whether paths start at the root, above which there is nothing. -/
  rooted : Bool
  ups : Nat
  names : List α
deriving DecidableEq, Repr

namespace Place

/-- Where paths start. -/
def start (rooted : Bool) : Place α := ⟨rooted, 0, []⟩

/-- One level up. -/
def parent (p : Place α) : Place α :=
  match p.names with
  | _ :: names => { p with names := names }
  | [] => if p.rooted then p else { p with ups := p.ups + 1 }

def walk (p : Place α) : PathStep α → Place α
  | .stay => p
  | .up => p.parent
  | .down name => { p with names := name :: p.names }

/-- `q` is `p`, or lies below it. -/
structure Below (p q : Place α) : Prop where
  rooted : q.rooted = p.rooted
  ups : q.ups = p.ups
  names : p.names <:+ q.names

/-- `n` levels up, and then down along `names`. -/
def shift (p : Place α) (n : Nat) (names : List α) : Place α where
  rooted := p.rooted
  ups := if p.rooted then p.ups else p.ups + (n - p.names.length)
  names := names ++ p.names.drop n

variable {p : Place α} {n : Nat} {names : List α}

theorem shift_zero (p : Place α) : p.shift 0 [] = p := by
  ext <;> simp [shift]

/-- A level up after `n` levels up. -/
theorem parent_shift_nil (p : Place α) (n : Nat) : (p.shift n []).parent = p.shift (n + 1) [] := by
  rcases Nat.lt_or_ge n p.names.length with hlt | hge
  · have hdrop := List.drop_eq_getElem_cons hlt
    have hn : n - p.names.length = 0 := by omega
    have hn1 : n + 1 - p.names.length = 0 := by omega
    simp only [parent, shift, List.nil_append, hdrop, hn, hn1]
  · have hdrop : p.names.drop n = [] := List.drop_of_length_le hge
    have hdrop1 : p.names.drop (n + 1) = [] := List.drop_of_length_le (by omega)
    cases hr : p.rooted with
    | true => simp [parent, shift, hdrop, hdrop1, hr]
    | false =>
        simp only [parent, shift, List.nil_append, hdrop, hdrop1, hr]
        ext
        · rfl
        · simp only [Bool.false_eq_true, if_false]
          omega
        · rfl

theorem rooted_walk (p : Place α) (s : PathStep α) : (p.walk s).rooted = p.rooted := by
  cases s with
  | stay => rfl
  | down name => rfl
  | up =>
      simp only [walk, parent]
      split
      · rfl
      · split
        · rfl
        · rfl

theorem rooted_foldl_walk (p : Place α) (steps : List (PathStep α)) :
    (steps.foldl walk p).rooted = p.rooted := by
  induction steps generalizing p with
  | nil => rfl
  | cons s steps ih => rw [List.foldl_cons, ih, rooted_walk]

/-- Where a path leads, from a place, if it leads to `r` from a directory that is not
known. -/
theorem foldl_walk (p : Place α) (steps : List (PathStep α)) :
    steps.foldl walk p =
      p.shift (steps.foldl walk (start false)).ups (steps.foldl walk (start false)).names := by
  induction steps using List.reverseRecOn with
  | nil => exact (shift_zero p).symm
  | append_singleton steps s ih =>
      have hrooted := rooted_foldl_walk (start false) steps
      rw [List.foldl_append, List.foldl_append, List.foldl_cons, List.foldl_nil, List.foldl_cons,
        List.foldl_nil, ih]
      generalize steps.foldl walk (start false) = r at hrooted
      obtain ⟨rooted, ups, names⟩ := r
      obtain rfl : rooted = false := hrooted
      cases s with
      | stay => rfl
      | down name => rfl
      | up =>
          cases names with
          | nil => exact parent_shift_nil p ups
          | cons name names => rfl

/-- A shifted place is below the old one if the names make up for the levels. -/
theorem below_shift : p.Below (p.shift n names) ↔
    (p.rooted = true ∨ n ≤ p.names.length) ∧ p.names.take n <:+ names := by
  have hsuffix : p.names <:+ names ++ p.names.drop n ↔ p.names.take n <:+ names := by
    nth_rewrite 1 [← List.take_append_drop n p.names]
    exact List.suffix_append_self_iff
  constructor
  · rintro ⟨-, hups, hnames⟩
    refine ⟨?_, hsuffix.mp hnames⟩
    cases hr : p.rooted with
    | true => exact .inl rfl
    | false =>
        right
        simp only [shift, hr, Bool.false_eq_true, if_false] at hups
        omega
  · rintro ⟨hn, hnames⟩
    refine ⟨rfl, ?_, hsuffix.mpr hnames⟩
    simp only [shift]
    split
    · rfl
    · rename_i hr
      have := hn.resolve_left hr
      omega

end Place
