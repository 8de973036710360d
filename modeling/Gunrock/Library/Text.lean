import Mathlib.Algebra.Order.BigOperators.Group.List
import Mathlib.Algebra.Order.Ring.Nat
import Mathlib.Data.List.Chain
import Mathlib.Data.List.TakeWhile
import Mathlib.Tactic.Common

/-!
# Text as bytes

What the C and C++ libraries do with text: they print and read decimal numerals, cut words at
whitespace and lines at newlines, and search for substrings.
-/

namespace Text

/-- The bytes of a string literal. -/
def bytes (s : String) : List UInt8 := s.toUTF8.data.toList

/-- Strings are compared as `std::string` compares them. -/
instance lawfulOrderLT : Std.LawfulOrderLT (List UInt8) := inferInstance

/-- What holds of the bytes one by one. -/
theorem forall_byte {P : UInt8 → Prop} (h : ∀ n < 256, P (UInt8.ofNat n)) (c : UInt8) : P c := by
  have hc := h c.toNat c.toNat_lt
  rwa [UInt8.ofNat_toNat] at hc

/-! ## Decimal numerals -/

def isDigit (c : UInt8) : Bool := 48 ≤ c && c ≤ 57

/-- The decimal numeral of `n`. -/
def decimal (n : Nat) : List UInt8 := (Nat.toDigits 10 n).map fun c => UInt8.ofNat c.toNat

/-- A numeral with a sign in front of it if the number is negative. -/
def decimalInt : Int → List UInt8
  | .ofNat n => decimal n
  | .negSucc n => 45 :: decimal (n + 1)

def digitsValue (ds : List UInt8) : Nat := ds.foldl (fun n c => 10 * n + (c.toNat - 48)) 0

theorem digitsValue_concat (ds : List UInt8) (c : UInt8) :
    digitsValue (ds ++ [c]) = 10 * digitsValue ds + (c.toNat - 48) := by
  rw [digitsValue, List.foldl_append]
  rfl

theorem digit_facts {n : Nat} (h : n < 10) :
    isDigit (UInt8.ofNat n.digitChar.toNat) = true ∧
      (UInt8.ofNat n.digitChar.toNat).toNat - 48 = n := by
  revert n
  decide

theorem decimal_of_lt {n : Nat} (h : n < 10) :
    decimal n = [UInt8.ofNat n.digitChar.toNat] := by
  rw [decimal, Nat.toDigits_of_lt_base h]
  rfl

theorem decimal_of_le {n : Nat} (h : 10 ≤ n) :
    decimal n = decimal (n / 10) ++ [UInt8.ofNat (n % 10).digitChar.toNat] := by
  rw [decimal, Nat.toDigits_of_base_le (by decide) h, List.map_append]
  rfl

theorem isDigit_of_mem_decimal {n : Nat} {c : UInt8} (h : c ∈ decimal n) : isDigit c = true := by
  induction n using Nat.strong_induction_on with
  | _ n ih =>
      rcases Nat.lt_or_ge n 10 with hlt | hge
      · rw [decimal_of_lt hlt, List.mem_singleton] at h
        rw [h]
        exact (digit_facts hlt).1
      · rw [decimal_of_le hge, List.mem_append, List.mem_singleton] at h
        rcases h with h | rfl
        · exact ih (n / 10) (by omega) h
        · exact (digit_facts (Nat.mod_lt n (by decide))).1

theorem digitsValue_decimal (n : Nat) : digitsValue (decimal n) = n := by
  induction n using Nat.strong_induction_on with
  | _ n ih =>
      rcases Nat.lt_or_ge n 10 with hlt | hge
      · rw [decimal_of_lt hlt, ← List.nil_append [_], digitsValue_concat, (digit_facts hlt).2]
        exact Nat.zero_add n
      · rw [decimal_of_le hge, digitsValue_concat, ih (n / 10) (by omega),
          (digit_facts (Nat.mod_lt n (by decide))).2]
        omega

theorem decimal_ne_nil (n : Nat) : decimal n ≠ [] := by
  rw [decimal, ne_eq, List.map_eq_nil_iff]
  exact Nat.toDigits_ne_nil

/-! ## Hexadecimal numerals -/

/-- The hexadecimal numeral of `n`, in lower case. -/
def hexadecimal (n : Nat) : List UInt8 := (Nat.toDigits 16 n).map fun c => UInt8.ofNat c.toNat

def hexDigitValue (c : UInt8) : Option Nat :=
  if isDigit c then some (c.toNat - 48)
  else if 97 ≤ c && c ≤ 102 then some (c.toNat - 87)
  else if 65 ≤ c && c ≤ 70 then some (c.toNat - 55)
  else none

theorem hexadecimal_of_lt {n : Nat} (h : n < 16) :
    hexadecimal n = [UInt8.ofNat n.digitChar.toNat] := by
  rw [hexadecimal, Nat.toDigits_of_lt_base h]
  rfl

theorem hexadecimal_of_le {n : Nat} (h : 16 ≤ n) :
    hexadecimal n = hexadecimal (n / 16) ++ [UInt8.ofNat (n % 16).digitChar.toNat] := by
  rw [hexadecimal, Nat.toDigits_of_base_le (by decide) h, List.map_append]
  rfl

/-! ## Words and numbers -/

/-- `isspace` -/
def isSpace (c : UInt8) : Bool := c == 32 || (9 ≤ c && c ≤ 13)

/-- The next word, and what is behind it. -/
def scanWord (s : List UInt8) : Option (List UInt8 × List UInt8) :=
  let s := s.dropWhile isSpace
  let word := s.takeWhile fun c => !isSpace c
  if word = [] then none else some (word, s.dropWhile fun c => !isSpace c)

/-- The number that comes next, with or without a sign, and what is behind it. -/
def scanInt (s : List UInt8) : Option (Int × List UInt8) :=
  let s := s.dropWhile isSpace
  let sign := s.head?
  let s := if sign = some 43 ∨ sign = some 45 then s.tail else s
  let digits := s.takeWhile isDigit
  if digits = [] then none
  else
    some (if sign = some 45 then -(digitsValue digits : Int) else digitsValue digits,
      s.dropWhile isDigit)

/-- `%x` of `scanf` for at most `width` bytes: a number in hexadecimal, with or without a sign
and `0x`. -/
def scanHex (width : Nat) (s : List UInt8) : Option Int :=
  let s := (s.dropWhile isSpace).take width
  let sign := s.head?
  let s := if sign = some 43 ∨ sign = some 45 then s.tail else s
  let s := if s.take 2 = [48, 120] ∨ s.take 2 = [48, 88] then s.drop 2 else s
  let digits := (s.takeWhile fun c => (hexDigitValue c).isSome).filterMap hexDigitValue
  if digits = [] then none
  else
    let n : Int := digits.foldl (fun n digit => 16 * n + digit) 0
    some (if sign = some 45 then -n else n)

theorem scanWord_append {word : List UInt8} (hne : word ≠ [])
    (hword : ∀ c ∈ word, isSpace c = false) {c : UInt8} (hc : isSpace c = true) (s : List UInt8) :
    scanWord (word ++ c :: s) = some (word, c :: s) := by
  obtain ⟨b, bs, rfl⟩ := List.exists_cons_of_ne_nil hne
  have hskip : (b :: bs ++ c :: s).dropWhile isSpace = b :: bs ++ c :: s := by
    rw [List.cons_append, List.dropWhile_cons_of_neg]
    rw [hword b List.mem_cons_self]
    exact Bool.false_ne_true
  have hnot : ∀ a ∈ b :: bs, (fun c => !isSpace c) a = true := fun a ha => by
    simp only [hword a ha, Bool.not_false]
  simp only [scanWord, hskip, List.takeWhile_append_of_pos hnot, List.dropWhile_append_of_pos hnot]
  simp [hc]

theorem scanInt_cons {c : UInt8} (hc : isSpace c = true) (s : List UInt8) :
    scanInt (c :: s) = scanInt s := by
  rw [scanInt, List.dropWhile_cons_of_pos hc]
  rfl

theorem not_isSpace_of_isDigit {c : UInt8} (h : isDigit c = true) : isSpace c = false := by
  rw [isDigit, Bool.and_eq_true, decide_eq_true_eq, decide_eq_true_eq, UInt8.le_iff_toNat_le] at h
  have hc : 48 ≤ c.toNat := h.1
  simp only [isSpace, Bool.or_eq_false_iff, Bool.and_eq_false_iff, decide_eq_false_iff_not,
    beq_eq_false_iff_ne, UInt8.le_iff_toNat_le, ne_eq, ← UInt8.toNat_inj, UInt8.reduceToNat]
  omega

theorem skipSpace_ne_nil {s : List UInt8} {r : Int × List UInt8} (h : scanInt s = some r) :
    s.dropWhile isSpace ≠ [] := by
  intro hnil
  simp [scanInt, hnil] at h

theorem scanInt_decimal_append (n : Nat) {s : List UInt8} (hs : ∀ c ∈ s.head?, isDigit c = false) :
    scanInt (decimal n ++ s) = some ((n : Int), s) := by
  obtain ⟨b, bs, hcons⟩ := List.exists_cons_of_ne_nil (decimal_ne_nil n)
  have hdigits : ∀ a ∈ decimal n, isDigit a = true := fun a ha => isDigit_of_mem_decimal ha
  have hb : isDigit b = true := hdigits b (by rw [hcons]; exact List.mem_cons_self)
  have hskip : (decimal n ++ s).dropWhile isSpace = decimal n ++ s := by
    rw [hcons, List.cons_append, List.dropWhile_cons_of_neg]
    rw [not_isSpace_of_isDigit hb]
    exact Bool.false_ne_true
  have hsign : ∀ a, isDigit a = false → (decimal n ++ s).head? ≠ some a := by
    intro a ha
    rw [hcons, List.cons_append, List.head?_cons, ne_eq, Option.some.injEq]
    rintro rfl
    rw [hb] at ha
    cases ha
  have hplus := hsign 43 (by decide)
  have hminus := hsign 45 (by decide)
  have hrest : s.takeWhile isDigit = [] ∧ s.dropWhile isDigit = s := by
    cases s with
    | nil => exact ⟨rfl, rfl⟩
    | cons c s =>
        have hc : ¬ isDigit c = true := Bool.eq_false_iff.mp (hs c rfl)
        exact ⟨List.takeWhile_cons_of_neg hc, List.dropWhile_cons_of_neg hc⟩
  have htake : (decimal n ++ s).takeWhile isDigit = decimal n := by
    rw [List.takeWhile_append_of_pos hdigits, hrest.1, List.append_nil]
  have hdrop : (decimal n ++ s).dropWhile isDigit = s := by
    rw [List.dropWhile_append_of_pos hdigits, hrest.2]
  simp only [scanInt, hskip, hplus, hminus, or_self, if_false, htake, hdrop, decimal_ne_nil,
    digitsValue_decimal]

theorem scanInt_decimal (n : Nat) {c : UInt8} (hc : isDigit c = false) (s : List UInt8) :
    scanInt (decimal n ++ c :: s) = some ((n : Int), c :: s) :=
  scanInt_decimal_append n fun _ hmem => Option.some.inj hmem ▸ hc

/-! ## Lines -/

section

variable {α : Type} [DecidableEq α]

/-- A string has no delimiter, or there is a first one. -/
@[elab_as_elim]
theorem induction_on_delimiters {P : List α → Prop} (d : α) (s : List α)
    (last : ∀ l, d ∉ l → P l) (cons : ∀ l s, d ∉ l → P s → P (l ++ d :: s)) : P s := by
  induction hn : s.length using Nat.strong_induction_on generalizing s with
  | h n ih =>
      by_cases hd : d ∈ s
      · obtain ⟨l, t, rfl, hl⟩ := List.eq_append_cons_of_mem hd
        refine cons l t hl (ih t.length ?_ t rfl)
        rw [← hn, List.length_append, List.length_cons]
        omega
      · exact last s hd

/-- `getline`: a line, and what is left of the stream.  At the end it fails. -/
def getline (d : α) (s : List α) : Option (List α × List α) :=
  if s = [] then none
  else some (s.takeWhile (· ≠ d), (s.dropWhile (· ≠ d)).drop 1)

theorem getline_nil (d : α) : getline d [] = none := if_pos rfl

theorem getline_append_cons {d : α} {l : List α} (hl : d ∉ l) (s : List α) :
    getline d (l ++ d :: s) = some (l, s) := by
  have hne : ∀ c ∈ l, decide (c ≠ d) = true := fun c hc =>
    decide_eq_true fun h => hl (h ▸ hc)
  rw [getline, if_neg (by simp), List.takeWhile_append_of_pos hne,
    List.dropWhile_append_of_pos hne, List.takeWhile_cons_of_neg (by simp),
    List.dropWhile_cons_of_neg (by simp), List.append_nil, List.drop_succ_cons, List.drop_zero]

theorem getline_of_notMem {d : α} {l : List α} (hl : d ∉ l) (hne : l ≠ []) :
    getline d l = some (l, []) := by
  have hall : ∀ c ∈ l, decide (c ≠ d) = true := fun c hc =>
    decide_eq_true fun h => hl (h ▸ hc)
  rw [getline, if_neg hne, List.takeWhile_eq_self_iff.mpr hall,
    List.dropWhile_eq_nil_iff.mpr hall, List.drop_nil]

/-- What `getline` reads until it fails.  A delimiter at the end begins no other line. -/
def getlines (d : α) (s : List α) : List (List α) :=
  if (s.splitOn d).getLast? = some [] then (s.splitOn d).dropLast else s.splitOn d

theorem getlines_append_cons {d : α} {l : List α} (hl : d ∉ l) (s : List α) :
    getlines d (l ++ d :: s) = l :: getlines d s := by
  have hne := List.splitOn_ne_nil d s
  rw [getlines, List.splitOn_append_cons_self, List.splitOn_eq_singleton hl, List.singleton_append,
    List.getLast?_cons_of_ne_nil hne, List.dropLast_cons_of_ne_nil hne, getlines]
  split
  · rfl
  · rfl

theorem getlines_of_notMem {d : α} {l : List α} (hl : d ∉ l) (hne : l ≠ []) :
    getlines d l = [l] := by
  rw [getlines, List.splitOn_eq_singleton hl, List.getLast?_singleton, if_neg]
  simpa using hne

theorem length_getlines_le (d : α) (s : List α) : (getlines d s).length ≤ s.length := by
  induction s using induction_on_delimiters d with
  | last l hl =>
      by_cases hne : l = []
      · rw [hne]
        exact Nat.zero_le _
      · rw [getlines_of_notMem hl hne]
        exact List.length_pos_iff.mpr hne
  | cons l s hl ih =>
      rw [getlines_append_cons hl]
      simp only [List.length_cons, List.length_append]
      omega

/-! ## Tokens -/

/-- The delimiters of `acc ++ s`, one by one, and what is between them, where `acc` has none. -/
def tokensFrom (d : α) : List α → List α → List (List α)
  | acc, [] => if acc = [] then [] else [acc]
  | acc, c :: s =>
    if c = d then (if acc = [] then [] else [acc]) ++ [d] :: tokensFrom d [] s
    else tokensFrom d (acc ++ [c]) s

def tokens (d : α) (s : List α) : List (List α) := tokensFrom d [] s

/-- What is between the delimiters. -/
def segments (d : α) (s : List α) : List (List α) := (tokens d s).filter (· ≠ [d])

variable {d : α} {acc l s t : List α} {ts : List (List α)}

theorem tokensFrom_append (hl : d ∉ l) : tokensFrom d acc (l ++ s) = tokensFrom d (acc ++ l) s := by
  induction l generalizing acc with
  | nil => rw [List.nil_append, List.append_nil]
  | cons c l ih =>
      have hne : c ≠ d := fun h => hl (h ▸ List.mem_cons_self)
      rw [List.cons_append, tokensFrom, if_neg hne, ih fun h => hl (List.mem_cons_of_mem c h),
        List.append_assoc, List.singleton_append]

theorem tokens_of_notMem (hl : d ∉ l) : tokens d l = if l = [] then [] else [l] := by
  have h : tokensFrom d [] (l ++ []) = tokensFrom d ([] ++ l) [] := tokensFrom_append hl
  rwa [List.append_nil, List.nil_append] at h

theorem tokens_append_cons (hl : d ∉ l) (s : List α) :
    tokens d (l ++ d :: s) = (if l = [] then [] else [l]) ++ [d] :: tokens d s := by
  rw [tokens, tokensFrom_append hl, List.nil_append, tokensFrom, if_pos rfl, tokens]

/-- The tokens are the string. -/
theorem flatten_tokens (d : α) (s : List α) : (tokens d s).flatten = s := by
  have hline : ∀ l : List α, (if l = [] then [] else [l]).flatten = l := by
    intro l
    split
    · rename_i hnil
      exact hnil.symm
    · exact List.flatten_singleton
  induction s using induction_on_delimiters d with
  | last l hl => rw [tokens_of_notMem hl, hline]
  | cons l s hl ih =>
      rw [tokens_append_cons hl, List.flatten_append, hline, List.flatten_cons, ih,
        List.singleton_append]

theorem mem_tokens (h : t ∈ tokens d s) : t = [d] ∨ (d ∉ t ∧ t ≠ []) := by
  have hline : ∀ l : List α, d ∉ l → t ∈ (if l = [] then [] else [l]) → d ∉ t ∧ t ≠ [] := by
    intro l hl ht
    split at ht
    · cases ht
    · rename_i hne
      obtain rfl : t = l := List.mem_singleton.mp ht
      exact ⟨hl, hne⟩
  induction s using induction_on_delimiters d with
  | last l hl =>
      rw [tokens_of_notMem hl] at h
      exact .inr (hline l hl h)
  | cons l s hl ih =>
      rw [tokens_append_cons hl] at h
      rcases List.mem_append.mp h with h | h
      · exact .inr (hline l hl h)
      · rcases List.mem_cons.mp h with rfl | h
        · exact .inl rfl
        · exact ih h

theorem ne_nil_of_mem_tokens (h : t ∈ tokens d s) : t ≠ [] := by
  rcases mem_tokens h with rfl | ⟨-, hnil⟩
  · exact List.cons_ne_nil d []
  · exact hnil

theorem length_tokens_le (d : α) (s : List α) : (tokens d s).length ≤ s.length := by
  have hle := List.length_le_sum_of_one_le ((tokens d s).map List.length) fun n hn => by
    obtain ⟨t, ht, rfl⟩ := List.mem_map.mp hn
    exact List.length_pos_iff.mpr (ne_nil_of_mem_tokens ht)
  rwa [List.length_map, ← List.length_flatten, flatten_tokens] at hle

theorem mem_segments (h : t ∈ segments d s) : d ∉ t ∧ t ≠ [] ∧ t ⊆ s := by
  obtain ⟨hmem, hne⟩ := List.mem_filter.mp h
  have hsub : t ⊆ s := fun c hc => by
    rw [← flatten_tokens d s]
    exact List.mem_flatten_of_mem hmem hc
  rcases mem_tokens hmem with rfl | ⟨hd, hnil⟩
  · simp at hne
  · exact ⟨hd, hnil, hsub⟩

theorem sum_segments_le (d : α) (s : List α) : ((segments d s).map List.length).sum ≤ s.length := by
  calc ((segments d s).map List.length).sum ≤ ((tokens d s).map List.length).sum :=
        (List.filter_sublist.map _).sum_le_sum fun _ _ => Nat.zero_le _
    _ = s.length := by rw [← List.length_flatten, flatten_tokens]

/-- Between two tokens that are not delimiters there is one that is. -/
theorem isChain_tokens (d : α) (s : List α) :
    (tokens d s).IsChain fun t t' => ¬ (d ∉ t ∧ d ∉ t') := by
  induction s using induction_on_delimiters d with
  | last l hl =>
      rw [tokens_of_notMem hl]
      split
      · exact .nil
      · exact .singleton l
  | cons l s hl ih =>
      have hdelim : ([d] :: tokens d s).IsChain fun t t' => ¬ (d ∉ t ∧ d ∉ t') :=
        ih.cons fun _ _ h => h.1 List.mem_cons_self
      rw [tokens_append_cons hl]
      split
      · exact hdelim
      · exact List.isChain_cons_cons.mpr ⟨fun h => h.2 List.mem_cons_self, hdelim⟩

theorem filter_ne_singleton (hl : d ∉ l) :
    (if l = [] then [] else [l]).filter (· ≠ [d]) = if l = [] then [] else [l] := by
  refine List.filter_eq_self.mpr fun t ht => ?_
  split at ht
  · cases ht
  · obtain rfl : t = l := List.mem_singleton.mp ht
    exact decide_eq_true fun h => hl (h ▸ List.mem_cons_self)

theorem segments_of_free (hl : d ∉ l) : segments d l = if l = [] then [] else [l] := by
  rw [segments, tokens_of_notMem hl, filter_ne_singleton hl]

theorem segments_append_delimiter (hl : d ∉ l) (s : List α) :
    segments d (l ++ d :: s) = (if l = [] then [] else [l]) ++ segments d s := by
  rw [segments, tokens_append_cons hl, List.filter_append, filter_ne_singleton hl,
    List.filter_cons_of_neg (by simp), segments]

theorem segments_of_notMem (hl : d ∉ l) (hne : l ≠ []) : segments d l = [l] := by
  rw [segments_of_free hl, if_neg hne]

theorem segments_append_cons (hl : d ∉ l) (hne : l ≠ []) :
    segments d (l ++ d :: s) = l :: segments d s := by
  rw [segments_append_delimiter hl, if_neg hne, List.singleton_append]

/-- The segments are the lines that are not empty. -/
theorem filter_getlines (d : α) (s : List α) : (getlines d s).filter (· ≠ []) = segments d s := by
  induction s using induction_on_delimiters d with
  | last l hl =>
      rw [segments_of_free hl]
      split
      · rename_i hnil
        rw [hnil]
        rfl
      · rename_i hne
        rw [getlines_of_notMem hl hne, List.filter_cons_of_pos (by simpa using hne),
          List.filter_nil]
  | cons l s hl ih =>
      rw [getlines_append_cons hl, segments_append_delimiter hl]
      split
      · rename_i hnil
        rw [List.filter_cons_of_neg (by simp [hnil]), ih, List.nil_append]
      · rename_i hne
        rw [List.filter_cons_of_pos (by simpa using hne), ih, List.singleton_append]

/-- From position `i` to `j` there is a segment: a delimiter or an end on either side. -/
structure IsSegment (d : α) (s : List α) (i j : Nat) : Prop where
  lt : i < j
  le : j ≤ s.length
  ne : ∀ k, i ≤ k → k < j → s[k]? ≠ some d
  left : i = 0 ∨ s[i - 1]? = some d
  right : j = s.length ∨ s[j]? = some d

/-- These are the segments, in the order of their positions. -/
def AreSegments (d : α) (s : List α) (ts : List (List α)) : Prop :=
  ∃ ps : List (Nat × Nat), ps.Pairwise (fun p q => p.1 < q.1) ∧
    (∀ i j, (i, j) ∈ ps ↔ IsSegment d s i j) ∧ ts = ps.map fun p => (s.drop p.1).take (p.2 - p.1)

/-- Positions, seen from `n` before. -/
def behind (n : Nat) (p : Nat × Nat) : Nat × Nat := (n + p.1, n + p.2)

section

omit [DecidableEq α]

theorem getElem?_ne_of_notMem (hl : d ∉ l) (k : Nat) : l[k]? ≠ some d :=
  fun h => hl (List.mem_of_getElem? h)

theorem isSegment_of_notMem (hl : d ∉ l) {i j : Nat} :
    IsSegment d l i j ↔ l ≠ [] ∧ i = 0 ∧ j = l.length := by
  have hne := getElem?_ne_of_notMem hl
  constructor
  · intro h
    have hi := h.left.resolve_right (hne _)
    have hj := h.right.resolve_right (hne _)
    refine ⟨?_, hi, hj⟩
    rintro rfl
    have hlt := h.lt
    simp only [List.length_nil] at hj
    omega
  · rintro ⟨hnil, rfl, rfl⟩
    exact ⟨List.length_pos_iff.mpr hnil, le_rfl, fun k _ _ => hne k, .inl rfl, .inl rfl⟩

/-- Behind the first delimiter, the segments are those of what is there. -/
theorem isSegment_append_cons (hl : d ∉ l) {i j : Nat} : IsSegment d (l ++ d :: s) i j ↔
    (l ≠ [] ∧ i = 0 ∧ j = l.length) ∨
      ∃ i' j', IsSegment d s i' j' ∧ i = l.length + 1 + i' ∧ j = l.length + 1 + j' := by
  have hbefore : ∀ k < l.length, (l ++ d :: s)[k]? ≠ some d := fun k hk => by
    rw [List.getElem?_append_left hk]
    exact getElem?_ne_of_notMem hl k
  have hat : (l ++ d :: s)[l.length]? = some d := by simp
  have hbehind : ∀ k, (l ++ d :: s)[l.length + 1 + k]? = s[k]? := fun k => by
    rw [List.getElem?_append_right (by omega), show l.length + 1 + k - l.length = k + 1 by omega,
      List.getElem?_cons_succ]
  have hlength : (l ++ d :: s).length = l.length + 1 + s.length := by
    rw [List.length_append, List.length_cons]
    omega
  constructor
  · intro h
    have hlt := h.lt
    have hle := h.le
    rcases Nat.lt_or_ge l.length i with hi | hi
    · obtain ⟨i, rfl⟩ : ∃ i', i = l.length + 1 + i' := ⟨i - (l.length + 1), by omega⟩
      obtain ⟨j, rfl⟩ : ∃ j', j = l.length + 1 + j' := ⟨j - (l.length + 1), by omega⟩
      refine .inr ⟨i, j, ⟨by omega, by omega, fun k h1 h2 => ?_, ?_, ?_⟩, rfl, rfl⟩
      · rw [← hbehind]
        exact h.ne _ (by omega) (by omega)
      · cases i with
        | zero => exact .inl rfl
        | succ i =>
            have hd := h.left.resolve_left (by omega)
            rw [show l.length + 1 + (i + 1) - 1 = l.length + 1 + i by omega, hbehind] at hd
            exact .inr hd
      · rw [← hbehind]
        exact h.right.imp_left fun hend => by omega
    · have hj : j ≤ l.length := Nat.not_lt.mp fun hgt => h.ne l.length hi hgt hat
      have hend := h.right.resolve_left (by omega)
      refine .inl ⟨?_, ?_, ?_⟩
      · exact List.length_pos_iff.mp (by omega)
      · by_contra hpos
        exact hbefore (i - 1) (by omega) (h.left.resolve_left hpos)
      · by_contra hne
        exact hbefore j (by omega) hend
  · rintro (⟨hnil, rfl, rfl⟩ | ⟨i, j, h, rfl, rfl⟩)
    · exact ⟨List.length_pos_iff.mpr hnil, by omega, fun k _ hk => hbefore k hk, .inl rfl, .inr hat⟩
    · have hlt := h.lt
      have hle := h.le
      refine ⟨by omega, by omega, fun k h1 h2 => ?_, .inr ?_, ?_⟩
      · obtain ⟨k, rfl⟩ : ∃ k', k = l.length + 1 + k' := ⟨k - (l.length + 1), by omega⟩
        rw [hbehind]
        exact h.ne k (by omega) (by omega)
      · cases i with
        | zero => exact hat
        | succ i =>
            rw [show l.length + 1 + (i + 1) - 1 = l.length + 1 + i by omega, hbehind]
            exact h.left.resolve_left (Nat.succ_ne_zero i)
      · rw [hbehind]
        exact h.right.imp_left fun hend => by omega

theorem areSegments_of_notMem (hl : d ∉ l) :
    AreSegments d l (if l = [] then [] else [l]) := by
  split
  · rename_i hnil
    refine ⟨[], .nil, fun i j => ?_, rfl⟩
    exact iff_of_false List.not_mem_nil fun h => ((isSegment_of_notMem hl).mp h).1 hnil
  · rename_i hne
    refine ⟨[(0, l.length)], List.pairwise_singleton _ _, fun i j => ?_, ?_⟩
    · simp [isSegment_of_notMem hl, hne]
    · simp

theorem AreSegments.append_cons (h : AreSegments d s ts) (hl : d ∉ l) :
    AreSegments d (l ++ d :: s) ((if l = [] then [] else [l]) ++ ts) := by
  obtain ⟨ps, hsorted, hmem, rfl⟩ := h
  have hmem' : ∀ i j, (i, j) ∈ ps.map (behind (l.length + 1)) ↔
      ∃ i' j', IsSegment d s i' j' ∧ i = l.length + 1 + i' ∧ j = l.length + 1 + j' := by
    intro i j
    simp [behind, ← hmem, eq_comm]
  have hsorted' : (ps.map (behind (l.length + 1))).Pairwise fun p q => p.1 < q.1 :=
    List.pairwise_map.mpr (hsorted.imp fun h => Nat.add_lt_add_left h _)
  have hpieces : (ps.map fun p => (s.drop p.1).take (p.2 - p.1)) =
      (ps.map (behind (l.length + 1))).map fun p =>
        ((l ++ d :: s).drop p.1).take (p.2 - p.1) := by
    rw [List.map_map]
    refine List.map_congr_left fun p _ => ?_
    have hdrop : (l ++ d :: s).drop (l.length + 1 + p.1) = s.drop p.1 := by
      rw [Nat.add_assoc, List.drop_length_add_append, Nat.add_comm 1, List.drop_succ_cons]
    simp only [Function.comp_apply, behind, hdrop, Nat.add_sub_add_left]
  split
  · rename_i hnil
    refine ⟨ps.map (behind (l.length + 1)), hsorted', fun i j => ?_, hpieces⟩
    rw [hmem', isSegment_append_cons hl]
    simp [hnil]
  · rename_i hne
    refine ⟨(0, l.length) :: ps.map (behind (l.length + 1)), ?_, fun i j => ?_, ?_⟩
    · refine List.pairwise_cons.mpr ⟨fun p hp => ?_, hsorted'⟩
      obtain ⟨q, -, rfl⟩ := List.mem_map.mp hp
      exact Nat.lt_add_right _ (Nat.succ_pos _)
    · rw [List.mem_cons, hmem', isSegment_append_cons hl, Prod.mk.injEq]
      simp [hne]
    · rw [List.map_cons, ← hpieces]
      simp

end

/-- What is between the delimiters are the segments. -/
theorem areSegments (d : α) (s : List α) : AreSegments d s (segments d s) := by
  induction s using induction_on_delimiters d with
  | last l hl =>
      rw [segments_of_free hl]
      exact areSegments_of_notMem hl
  | cons l s hl ih =>
      rw [segments_append_delimiter hl]
      exact ih.append_cons hl

/-- What is between the delimiters that something is joined with. -/
theorem segments_intercalate {ts : List (List α)} (h : ∀ t ∈ ts, d ∉ t ∧ t ≠ []) :
    segments d ([d].intercalate ts) = ts := by
  induction ts with
  | nil => rfl
  | cons t ts ih =>
      obtain ⟨⟨hd, hne⟩, h⟩ := List.forall_mem_cons.mp h
      cases ts with
      | nil => rw [List.intercalate_singleton, segments_of_notMem hd hne]
      | cons t' ts =>
          rw [List.intercalate_cons_cons, List.append_assoc, List.singleton_append,
            segments_append_cons hd hne, ih h]

omit [DecidableEq α] in
theorem length_intercalate (d : α) (ts : List (List α)) :
    ([d].intercalate ts).length = (ts.map fun t => t.length + 1).sum - 1 := by
  induction ts with
  | nil => rfl
  | cons t ts ih =>
      cases ts with
      | nil => simp
      | cons t' ts =>
          rw [List.intercalate_cons_cons, List.length_append, List.length_append, ih]
          simp only [List.map_cons, List.sum_cons, List.length_singleton]
          omega

omit [DecidableEq α] in
theorem mem_intercalate {c : α} {ts : List (List α)} (h : c ∈ [d].intercalate ts) :
    (∃ t ∈ ts, c ∈ t) ∨ c = d := by
  induction ts with
  | nil => cases h
  | cons t ts ih =>
      cases ts with
      | nil =>
          rw [List.intercalate_singleton] at h
          exact .inl ⟨t, List.mem_cons_self, h⟩
      | cons t' ts =>
          rw [List.intercalate_cons_cons] at h
          rcases List.mem_append.mp h with h | h
          · rcases List.mem_append.mp h with h | h
            · exact .inl ⟨t, List.mem_cons_self, h⟩
            · exact .inr (List.mem_singleton.mp h)
          · refine (ih h).imp_left ?_
            rintro ⟨u, hu, hc⟩
            exact ⟨u, List.mem_cons_of_mem t hu, hc⟩

/-! ## Substrings -/

/-- `string::find`: where `sub` occurs first. -/
def find (sub : List α) : List α → Option Nat
  | [] => if sub = [] then some 0 else none
  | c :: s => if sub <+: c :: s then some 0 else (find sub s).map (· + 1)

theorem find_of_prefix {sub : List α} (h : sub <+: s) : find sub s = some 0 := by
  cases s with
  | nil => rw [find, if_pos (List.prefix_nil.mp h)]
  | cons c s => rw [find, if_pos h]

theorem prefix_of_find {sub : List α} (h : find sub s = some 0) : sub <+: s := by
  cases s with
  | nil =>
      rw [find] at h
      split at h
      · rename_i hnil
        exact hnil ▸ List.prefix_rfl
      · cases h
  | cons c s =>
      rw [find] at h
      split at h
      · assumption
      · simp at h

omit [DecidableEq α] in
theorem prefix_of_append_cons {p : List α} (hp : d ∉ p) (h : p <+: l ++ d :: s) :
    p <+: l := by
  rcases Nat.lt_or_ge l.length p.length with hlt | hle
  · have hpre : l ++ [d] <+: p := by
      refine List.prefix_of_prefix_length_le ⟨s, List.append_assoc _ _ _⟩ h ?_
      rw [List.length_append]
      exact hlt
    exact absurd (hpre.subset (List.mem_append_right l List.mem_cons_self)) hp
  · exact List.prefix_of_prefix_length_le h (List.prefix_append _ _) hle

/-- What does not contain the first byte of `sub` is passed over. -/
theorem find_append {b : α} {sub : List α} (hl : b ∉ l) (s : List α) :
    find (b :: sub) (l ++ s) = (find (b :: sub) s).map (· + l.length) := by
  induction l with
  | nil => simp
  | cons c l ih =>
      have hne : b ≠ c := fun h => hl (h ▸ List.mem_cons_self)
      rw [List.cons_append, find, if_neg fun h => hne (List.cons_prefix_cons.mp h).1,
        ih fun h => hl (List.mem_cons_of_mem c h), Option.map_map, List.length_cons]
      rfl

end

/-! ## Lines that end in CR LF -/

/-- CR LF -/
def crlf : List UInt8 := [13, 10]

/-- What can stand in a line. -/
structure IsLine (l : List UInt8) : Prop where
  ne_nil : l ≠ []
  cr : 13 ∉ l
  lf : 10 ∉ l

/-- The lines, with CR LF between them. -/
def joinLines (l : List UInt8) : List (List UInt8) → List UInt8
  | [] => l
  | l' :: ls => l ++ crlf ++ joinLines l' ls

theorem flatMap_crlf (l : List UInt8) (ls : List (List UInt8)) :
    (l :: ls).flatMap (· ++ crlf) = joinLines l ls ++ crlf := by
  induction ls generalizing l with
  | nil => rw [List.flatMap_singleton, joinLines]
  | cons l' ls ih => rw [List.flatMap_cons, ih, joinLines, List.append_assoc (l ++ crlf)]

/-- The first empty line is the one behind the last line. -/
theorem find_joinLines {l : List UInt8} {ls : List (List UInt8)} (hls : ∀ x ∈ l :: ls, IsLine x)
    (s : List UInt8) :
    find (crlf ++ crlf) (joinLines l ls ++ (crlf ++ crlf ++ s)) = some (joinLines l ls).length := by
  have hend : ∀ t : List UInt8, IsLine l → find (crlf ++ crlf) (l ++ t) =
      (find (crlf ++ crlf) t).map (· + l.length) := fun t hl => find_append hl.cr t
  induction ls generalizing l with
  | nil =>
      rw [joinLines, hend _ (hls l List.mem_cons_self), find_of_prefix ⟨s, rfl⟩, Option.map_some,
        Nat.zero_add]
  | cons l' ls ih =>
      obtain ⟨hl, hls⟩ := List.forall_mem_cons.mp hls
      have hl' := hls l' List.mem_cons_self
      obtain ⟨t, ht⟩ : ∃ t, joinLines l' ls = l' ++ t := by
        cases ls with
        | nil => exact ⟨[], (List.append_nil _).symm⟩
        | cons l'' ls => exact ⟨crlf ++ joinLines l'' ls, List.append_assoc _ _ _⟩
      -- behind the line there is one CR LF, and then a byte that is no CR
      have hpass : ∀ u, find (crlf ++ crlf) (crlf ++ (l' ++ u)) =
          (find (crlf ++ crlf) (l' ++ u)).map (· + 2) := by
        intro u
        obtain ⟨b, bs, rfl⟩ := List.exists_cons_of_ne_nil hl'.ne_nil
        have hb : 13 ≠ b := fun h => hl'.cr (h ▸ List.mem_cons_self)
        simp only [crlf, List.cons_append, List.nil_append, find, List.cons_prefix_cons, hb,
          false_and, and_false, if_false, Option.map_map,
          show ¬ (13 : UInt8) = 10 by decide]
        congr 1
      rw [joinLines, List.append_assoc, List.append_assoc, hend _ hl, ht, List.append_assoc, hpass,
        ← List.append_assoc, ← ht, ih hls fun t hl => find_append hl.cr t]
      simp only [Option.map_some, List.length_append, Option.some.injEq,
        show crlf.length = 2 from rfl]
      omega

/-- Read as lines that end in LF, they may keep their CR. -/
theorem getlines_joinLines {l : List UInt8} {ls : List (List UInt8)}
    (hls : ∀ x ∈ l :: ls, IsLine x) :
    List.Forall₂ (fun x line => line = x ∨ line = x ++ [13]) (l :: ls)
      (getlines 10 (joinLines l ls)) := by
  induction ls generalizing l with
  | nil =>
      have hl := hls l List.mem_cons_self
      rw [joinLines, getlines_of_notMem hl.lf hl.ne_nil]
      exact .cons (.inl rfl) .nil
  | cons l' ls ih =>
      obtain ⟨hl, hls⟩ := List.forall_mem_cons.mp hls
      have hcr : 10 ∉ l ++ [13] := by
        rw [List.mem_append, List.mem_singleton]
        exact fun h => h.elim hl.lf (by decide)
      have hsplit : joinLines l (l' :: ls) = (l ++ [13]) ++ 10 :: joinLines l' ls := by
        simp [joinLines, crlf]
      rw [hsplit, getlines_append_cons hcr]
      exact .cons (.inr rfl) (ih hls)

end Text
