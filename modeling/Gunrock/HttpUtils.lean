import Gunrock.StringUtils
import Mathlib.Data.List.GetD

/-!
# The other splitter

`HttpUtils.cpp` splits query strings on its own: it reads lines up to the delimiter and drops the
empty ones.  Of the strings that an `int` counts through, it makes what `StringUtils::split` makes
(`splittersAgree_iff`).
-/

namespace Gunrock

open Text

namespace HttpUtils

/-- The loop over the lines of `ss`, whose first argument is more than the length of `ss`. -/
def readItems (delim : UInt8) : Nat → (ss : Bytes) → (elems : List Bytes) → List Bytes
  | 0, _, elems => elems
  | n + 1, ss, elems =>
    match getline delim ss with
    | some (item, ss) => readItems delim n ss (elems ++ [item])
    | none => elems

/-- `split` with three arguments, which adds to `elems`. -/
def splitInto (s : Bytes) (delim : UInt8) (elems : List Bytes) : List Bytes :=
  readItems delim (s.length + 1) s elems

/-- The loop over `elems`, if it ends within `n` passes: its index is an `unsigned int`. -/
def dropEmpty (elems : List Bytes) : Nat → (idx : Nat) → (result : List Bytes) →
    Option (List Bytes)
  | 0, _, _ => none
  | n + 1, idx, result =>
    if idx < elems.length then
      let elem := elems.getD idx []
      dropEmpty elems n ((idx + 1) % 2 ^ 32) (if 0 < elem.length then result ++ [elem] else result)
    else some result

def split (s : Bytes) (delim : UInt8) (passes : Nat) : Option (List Bytes) :=
  dropEmpty (splitInto s delim []) passes 0 []

/-! ## The loops -/

variable {s : Bytes} {delim : UInt8} {elems result : List Bytes} {n idx : Nat}

theorem readItems_nil : readItems delim n [] elems = elems := by
  cases n with
  | zero => rfl
  | succ n => rw [readItems, getline_nil]

theorem readItems_eq (hn : s.length < n) :
    readItems delim n s elems = elems ++ getlines delim s := by
  induction s using induction_on_delimiters delim generalizing n elems with
  | last l hl =>
      by_cases hnil : l = []
      · rw [hnil, readItems_nil]
        exact (List.append_nil elems).symm
      · cases n with
        | zero => exact absurd hn (Nat.not_lt_zero _)
        | succ n =>
            rw [readItems, getline_of_notMem hl hnil, getlines_of_notMem hl hnil]
            exact readItems_nil
  | cons l s hl ih =>
      rw [List.length_append, List.length_cons] at hn
      cases n with
      | zero => exact absurd hn (Nat.not_lt_zero _)
      | succ n =>
          rw [readItems, getline_append_cons hl, getlines_append_cons hl]
          dsimp only
          rw [ih (by omega), List.append_assoc, List.singleton_append]

theorem splitInto_eq (s : Bytes) (delim : UInt8) (elems : List Bytes) :
    splitInto s delim elems = elems ++ getlines delim s :=
  readItems_eq (Nat.lt_succ_self _)

/-- As long as the index does not wrap, the loop ends. -/
theorem dropEmpty_eq (hlt : elems.length < 2 ^ 32) (hidx : idx ≤ elems.length)
    (hn : elems.length < idx + n) :
    dropEmpty elems n idx result = some (result ++ (elems.drop idx).filter (· ≠ [])) := by
  induction n generalizing idx result with
  | zero => omega
  | succ n ih =>
      rw [dropEmpty]
      split
      · rename_i h
        have hnext : (idx + 1) % 2 ^ 32 = idx + 1 := Nat.mod_eq_of_lt (by omega)
        have hget : elems.getD idx [] = elems[idx] := List.getD_eq_getElem elems [] h
        dsimp only
        rw [hnext, ih (by omega) (by omega), List.drop_eq_getElem_cons h, hget]
        split
        · rename_i hpos
          rw [List.filter_cons_of_pos (by simpa using List.length_pos_iff.mp hpos),
            List.append_assoc, List.singleton_append]
        · rename_i hzero
          rw [List.filter_cons_of_neg (by simpa using hzero)]
      · rename_i h
        rw [List.drop_of_length_le (Nat.not_lt.mp h), List.filter_nil, List.append_nil]

/-- Of less than `2 ^ 32` bytes there are too few lines for the index to wrap. -/
theorem split_eq (hlt : s.length < 2 ^ 32) (hn : s.length < n) :
    split s delim n = some (segments delim s) := by
  have hle := length_getlines_le delim s
  rw [split, splitInto_eq, List.nil_append, dropEmpty_eq (by omega) (Nat.zero_le _) (by omega),
    List.drop_zero, filter_getlines, List.nil_append]

end HttpUtils

/-! ## Both -/

/-- Both splitters make the segments of a string, and its tokens are the string: the delimiters,
and between two of them a segment at most. -/
structure SplittersAgree (s : Bytes) (d : UInt8) : Prop where
  same : ∃ n, HttpUtils.split s d n = some (StringUtils.split s d)
  segments : AreSegments d s (StringUtils.split s d)
  flatten : (StringUtils.splitWithDelimiter s d).flatten = s
  token : ∀ t ∈ StringUtils.splitWithDelimiter s d, t = [d] ∨ (d ∉ t ∧ t ≠ [])
  alternate : (StringUtils.splitWithDelimiter s d).IsChain fun t t' => ¬ (d ∉ t ∧ d ∉ t')

/-- The splitters agree on the strings that an `int` counts through. -/
theorem splittersAgree_iff (s : Bytes) (d : UInt8) : SplittersAgree s d ↔ s.length < 2 ^ 31 := by
  constructor
  · intro h
    rw [← StringUtils.reached_eq_iff, ← StringUtils.flatten_splitWithDelimiter s d]
    exact h.flatten
  · intro hlt
    have hreached := StringUtils.reached_of_lt hlt
    have hsplit : StringUtils.split s d = Text.segments d s := by
      rw [StringUtils.split_eq, hreached]
    have htokens : StringUtils.splitWithDelimiter s d = tokens d s := by
      rw [StringUtils.splitWithDelimiter_eq, hreached]
    constructor
    · exact ⟨s.length + 1, hsplit ▸ HttpUtils.split_eq (by omega) (Nat.lt_succ_self _)⟩
    · exact hsplit ▸ areSegments d s
    · rw [htokens, flatten_tokens]
    · rw [htokens]
      exact fun t ht => mem_tokens ht
    · rw [htokens]
      exact isChain_tokens d s

/-- Of `2 ^ 31` bytes `StringUtils::split` makes nothing, since `(int) str.length()` is negative. -/
theorem not_splittersAgree : ¬ SplittersAgree (List.replicate (2 ^ 31) 97) 47 := by
  intro h
  have hflatten := h.flatten
  rw [StringUtils.flatten_splitWithDelimiter, StringUtils.reached_eq_iff,
    List.length_replicate] at hflatten
  exact absurd hflatten (by decide)

end Gunrock
