import Gunrock.Ufs
import Gunrock.Library.Text

/-!
# Splitting strings

`StringUtils.cpp`.  The loops count in an `int`, so of a string whose length does not fit they reach
a prefix (`reached`), whose length is the length converted to an `int`.  That they split into its
tokens (`splitWithDelimiter_eq`).
-/

namespace Gunrock

open Text

/-- What the shared code throws. -/
inductive Exception where
  | text (s : String)
  /-- `std::out_of_range` -/
  | outOfRange
  /-- `std::length_error` -/
  | lengthError
  /-- `std::bad_array_new_length` -/
  | badArrayNewLength
deriving DecidableEq, Repr

namespace Exception

variable {α β : Type} {x : Except Exception α} {f : α → Except Exception β} {b : β}

theorem ok_bind (a : α) (f : α → Except Exception β) : (Except.ok a >>= f) = f a := rfl

/-- Nothing that returns has thrown on its way. -/
theorem bind_eq_ok : (x >>= f) = .ok b ↔ ∃ a, x = .ok a ∧ f a = .ok b := by
  cases x with
  | error e =>
      constructor
      · intro h
        cases h
      · rintro ⟨_, h, _⟩
        cases h
  | ok a => simp [ok_bind]

end Exception

namespace StringUtils

/-- `str.substr(start, n)`, with `start` not behind the end. -/
def substr (str : Bytes) (start n : Nat) : Bytes := (str.drop start).take n

/-- What `splitWithDelimiter` adds to `result` at a delimiter and at the end. -/
def addBefore (str : Bytes) (result : List Bytes) (start idx : Nat) : List Bytes :=
  if idx ≠ start then result ++ [substr str start (idx - start)] else result

/-- The loop of `splitWithDelimiter` with `n` passes to go, and what comes behind it. -/
def splitLoop (str : Bytes) (delimiter : UInt8) :
    Nat → List Bytes → (start idx : Nat) → List Bytes
  | 0, result, start, idx => addBefore str result start idx
  | n + 1, result, start, idx =>
    if str[idx]? = some delimiter then
      splitLoop str delimiter n (addBefore str result start idx ++ [[delimiter]])
        (idx + 1) (idx + 1)
    else splitLoop str delimiter n result start (idx + 1)

def splitWithDelimiter (str : Bytes) (delimiter : UInt8) : List Bytes :=
  splitLoop str delimiter (int32 str.length).toNat [] 0 0

def split (str : Bytes) (delimiter : UInt8) : List Bytes :=
  let initial := splitWithDelimiter str delimiter
  (initial.take (int32 initial.length).toNat).filter (· ≠ [delimiter])

/-! ## The tokens -/

/-- The part of a string that an `int` counts through. -/
def reached (str : Bytes) : Bytes := str.take (int32 str.length).toNat

variable {str : Bytes} {delimiter : UInt8} {result : List Bytes}

theorem reached_of_lt (h : str.length < 2 ^ 31) : reached str = str := by
  rw [reached, int32_of_fits (by constructor <;> omega), Int.toNat_natCast, List.take_length]

theorem int32_toNat_lt (z : Int) : (int32 z).toNat < 2 ^ 31 := by
  have h := Buffer.fitsInt_signed (Buffer.unsigned_lt z)
  rw [Buffer.FitsInt] at h
  rw [int32]
  omega

theorem int32_toNat_le (n : Nat) : (int32 n).toNat ≤ n := by
  rw [int32, Buffer.signed, Buffer.unsigned]
  split <;> omega

theorem length_reached (str : Bytes) : (reached str).length = (int32 str.length).toNat := by
  rw [reached, List.length_take, Nat.min_eq_left (int32_toNat_le _)]

theorem length_reached_le (str : Bytes) : (reached str).length ≤ str.length := by
  rw [length_reached]
  exact int32_toNat_le _

/-- Less than a third is reached of a string that is too long. -/
theorem three_mul_length_reached_lt (h : 2 ^ 31 ≤ str.length) :
    3 * (reached str).length < str.length := by
  rw [length_reached, int32, Buffer.signed, Buffer.unsigned]
  split <;> omega

/-- No byte is left out just when an `int` counts through the string. -/
theorem reached_eq_iff : reached str = str ↔ str.length < 2 ^ 31 := by
  refine ⟨fun h => Nat.lt_of_not_le fun hle => ?_, reached_of_lt⟩
  have hlt := three_mul_length_reached_lt hle
  rw [h] at hlt
  omega

theorem addBefore_eq {start idx : Nat} (hstart : start ≤ idx) (hidx : idx ≤ str.length) :
    addBefore str result start idx =
      result ++ if substr str start (idx - start) = [] then [] else
        [substr str start (idx - start)] := by
  have hnil : substr str start (idx - start) = [] ↔ idx = start := by
    rw [← List.length_eq_zero_iff, substr, List.length_take, List.length_drop]
    omega
  simp only [addBefore, hnil, ne_eq, ite_not]
  split
  · exact (List.append_nil _).symm
  · rfl

/-- The loop adds the tokens of what is between `start` and the end of its passes. -/
theorem splitLoop_eq {n start idx : Nat} (hstart : start ≤ idx) (hidx : idx + n ≤ str.length) :
    splitLoop str delimiter n result start idx =
      result ++ tokensFrom delimiter (substr str start (idx - start)) (substr str idx n) := by
  induction n generalizing result start idx with
  | zero =>
      have hnil : substr str idx 0 = [] := List.take_zero
      rw [splitLoop, addBefore_eq hstart hidx, hnil, tokensFrom]
  | succ n ih =>
      have hlt : idx < str.length := by omega
      have hget : str[idx]? = some str[idx] := List.getElem?_eq_getElem hlt
      have hcons : substr str idx (n + 1) = str[idx] :: substr str (idx + 1) n := by
        rw [substr, List.drop_eq_getElem_cons hlt, List.take_succ_cons]
        rfl
      rw [splitLoop, hcons, tokensFrom]
      simp only [hget, Option.some.injEq]
      split
      · have hnil : substr str (idx + 1) (idx + 1 - (idx + 1)) = [] := by
          rw [Nat.sub_self]
          exact List.take_zero
        rw [ih (Nat.le_refl _) (by omega), addBefore_eq hstart (Nat.le_of_lt hlt), hnil]
        simp only [List.append_assoc, List.singleton_append]
      · have hsnoc : substr str start (idx + 1 - start) =
            substr str start (idx - start) ++ [str[idx]] := by
          rw [substr, Nat.succ_sub hstart, List.take_add_one, List.getElem?_drop,
            Nat.add_sub_cancel' hstart, hget]
          rfl
        rw [ih (by omega) (by omega), hsnoc]

theorem splitWithDelimiter_eq (str : Bytes) (delimiter : UInt8) :
    splitWithDelimiter str delimiter = tokens delimiter (reached str) := by
  rw [splitWithDelimiter, splitLoop_eq (Nat.le_refl 0) (by
    rw [Nat.zero_add]
    exact int32_toNat_le _)]
  rfl

theorem flatten_splitWithDelimiter (str : Bytes) (delimiter : UInt8) :
    (splitWithDelimiter str delimiter).flatten = reached str := by
  rw [splitWithDelimiter_eq, flatten_tokens]

/-- No token is cut off: there are no more tokens than bytes. -/
theorem split_eq (str : Bytes) (delimiter : UInt8) :
    split str delimiter = segments delimiter (reached str) := by
  have hle : (tokens delimiter (reached str)).length < 2 ^ 31 :=
    calc (tokens delimiter (reached str)).length ≤ (reached str).length :=
          length_tokens_le delimiter (reached str)
      _ = (int32 str.length).toNat := length_reached str
      _ < 2 ^ 31 := int32_toNat_lt _
  rw [split, splitWithDelimiter_eq, int32_of_fits (by constructor <;> omega), Int.toNat_natCast,
    List.take_length]
  rfl

end StringUtils

end Gunrock
