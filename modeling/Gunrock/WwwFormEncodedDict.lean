import Gunrock.Library.SortedMap
import Gunrock.StringUtils
import Mathlib.Data.Bool.AllAny

/-!
# Form dictionaries

`WwwFormEncodedDict.cpp`.  A string of ASCII characters is what its encoding decodes to, if the
encoding is not longer than an `int` can count (`urldecode_urlencode`).  The other characters are
negative as a `char`, and what is written for them is cut off.
-/

namespace Gunrock

open Text StringUtils

namespace WwwFormEncodedDict

/-! ## Strings -/

/-- `isalnum` -/
def isalnum (c : UInt8) : Bool := isDigit c || (65 ≤ c && c ≤ 90) || (97 ≤ c && c ≤ 122)

/-- What `snprintf` prints to `hex`: at most four bytes of `%` and two or more digits of the
character, which is a signed one and is printed as an `unsigned int`. -/
def escape (c : UInt8) : Bytes :=
  (37 :: (hexadecimal c.toInt8.toInt32.toUInt32.toNat).leftpad 2 48).take 4

def urlencode (str : Bytes) : Bytes := str.flatMap fun c => if isalnum c then [c] else escape c

/-- The variables of the loop of `urldecode`. -/
structure Decoding where
  nextStartsWithHex : Bool := false
  decoded : Bytes := []

/-- One pass of the loop. -/
def decodeLine (d : Decoding) (line : Bytes) : Except Exception Decoding :=
  if line = [37] then .ok { d with nextStartsWithHex := true }
  else if d.nextStartsWithHex then
    match scanHex 2 (line.take 2) with
    | none => .error (.text "couldn't parse escaped char")
    | some digit =>
      -- `line.substr(2)`
      if line.length < 2 then .error .outOfRange
      else
        .ok { nextStartsWithHex := false,
              decoded := d.decoded ++ UInt8.ofNat (Buffer.unsigned digit) :: line.drop 2 }
  else .ok { d with decoded := d.decoded ++ line }

def urldecode (str : Bytes) : Except Exception Bytes := do
  let d ← (splitWithDelimiter str 37).foldlM decodeLine {}
  return d.decoded

end WwwFormEncodedDict

/-! ## Dictionaries -/

/-- `WwwFormEncodedDict`, which is its `m_values`. -/
abbrev WwwFormEncodedDict := SortedMap Bytes Bytes

namespace WwwFormEncodedDict

def encodePair (e : Bytes × Bytes) : Bytes := urlencode e.1 ++ bytes "=" ++ urlencode e.2

def encode (dict : WwwFormEncodedDict) : Bytes :=
  (bytes "&").intercalate (dict.entries.map encodePair)

/-- One pass of the loop of the constructor. -/
def readPair (dict : WwwFormEncodedDict) (pair : Bytes) : Except Exception WwwFormEncodedDict :=
  match split pair 61 with
  | [k, v] => do
    let key ← urldecode k
    let value ← urldecode v
    return dict.insert key value
  | _ => .error (.text "Parse error")

/-- The constructor. -/
def ofBody (body : Bytes) : Except Exception WwwFormEncodedDict :=
  (split body 38).foldlM readPair SortedMap.empty

/-! ## What is encoded -/

/-- What an encoded character is decoded to. -/
def expand (c : UInt8) : Bytes := if c < 128 then [c] else [255, 102]

/-- What is behind the `%`. -/
def digits (c : UInt8) : Bytes := (escape c).tail

theorem escape_eq (c : UInt8) : escape c = 37 :: digits c := by
  revert c
  exact forall_byte (by decide +kernel)

theorem all_isalnum_digits (c : UInt8) : (digits c).all isalnum = true := by
  revert c
  exact forall_byte (by decide +kernel)

theorem length_digits (c : UInt8) : (digits c).length = 1 + (expand c).length := by
  revert c
  exact forall_byte (by decide +kernel)

/-- The first two digits are read as one byte, the others are left. -/
theorem scanHex_digits (c : UInt8) :
    (scanHex 2 ((digits c).take 2)).map (fun digit =>
      UInt8.ofNat (Buffer.unsigned digit) :: (digits c).drop 2) = some (expand c) := by
  revert c
  exact forall_byte (by decide +kernel)

variable {c : UInt8} {s acc out rest : Bytes} {d : Decoding}

theorem isalnum_of_mem_digits {b : UInt8} (hb : b ∈ digits c) : isalnum b = true :=
  List.all_eq_true.mp (all_isalnum_digits c) b hb

theorem length_expand (c : UInt8) : 1 ≤ (expand c).length ∧ (expand c).length ≤ 2 := by
  rw [expand]
  split
  · exact ⟨Nat.le_refl 1, Nat.le_succ 1⟩
  · exact ⟨Nat.le_succ 1, Nat.le_refl 2⟩

theorem not_isalnum_percent : isalnum 37 = false := by
  decide

theorem percent_notMem (h : ∀ c ∈ s, isalnum c = true) : 37 ∉ s := fun hmem => by
  cases (h 37 hmem).symm.trans not_isalnum_percent

theorem expand_of_isalnum (h : isalnum c = true) : expand c = [c] := by
  refine if_pos ?_
  simp only [isalnum, isDigit, Bool.or_eq_true, Bool.and_eq_true, decide_eq_true_eq,
    UInt8.le_iff_toNat_le, UInt8.lt_iff_toNat_lt, UInt8.reduceToNat] at h ⊢
  omega

/-- Decoding a line of which `acc` has been read: `out` is what has been decoded with it. -/
structure Pending (d : Decoding) (acc out : Bytes) : Prop where
  notMem : 37 ∉ acc
  nil : acc = [] → d = { decoded := out }
  decodeLine : ∀ rest, 37 ∉ rest → acc ++ rest ≠ [] →
    decodeLine d (acc ++ rest) = .ok { decoded := out ++ rest }

namespace Pending

theorem start (out : Bytes) : Pending { decoded := out } [] out where
  notMem := List.not_mem_nil
  nil _ := rfl
  decodeLine rest hrest _ := by
    have hne : rest ≠ [37] := fun h => hrest (h ▸ List.mem_cons_self)
    rw [List.nil_append, WwwFormEncodedDict.decodeLine, if_neg hne]
    rfl

/-- A character behind `acc` is one character more. -/
theorem snoc (h : Pending d acc out) (hc : isalnum c = true) :
    Pending d (acc ++ [c]) (out ++ [c]) := by
  have hne : c ≠ 37 := by
    rintro rfl
    cases hc.symm.trans not_isalnum_percent
  have hnotMem : ∀ {l : Bytes}, 37 ∉ l → 37 ∉ c :: l := fun hl hmem =>
    (List.mem_cons.mp hmem).elim (fun h => hne h.symm) hl
  refine ⟨fun hmem => ?_, fun hnil => ?_, fun rest hrest _ => ?_⟩
  · exact (List.mem_append.mp hmem).elim h.notMem (hnotMem List.not_mem_nil)
  · simp at hnil
  · rw [← List.append_cons, ← List.append_cons]
    exact h.decodeLine (c :: rest) (hnotMem hrest) (by simp)

/-- Behind a `%` stand the digits of a character. -/
theorem digits (out : Bytes) (c : UInt8) :
    Pending { nextStartsWithHex := true, decoded := out } (digits c) (out ++ expand c) := by
  have hlen : 2 ≤ (WwwFormEncodedDict.digits c).length := by
    have hpos := (length_expand c).1
    rw [length_digits]
    omega
  refine ⟨percent_notMem fun b hb => isalnum_of_mem_digits hb, fun hnil => ?_,
    fun rest hrest _ => ?_⟩
  · rw [hnil] at hlen
    cases hlen
  · obtain ⟨digit, hscan, hexpand⟩ := Option.map_eq_some_iff.mp (scanHex_digits c)
    have hlen' : 2 ≤ (WwwFormEncodedDict.digits c ++ rest).length := by
      rw [List.length_append]
      omega
    have hne : WwwFormEncodedDict.digits c ++ rest ≠ [37] := fun h => by
      rw [h] at hlen'
      exact absurd hlen' (by decide)
    simp only [WwwFormEncodedDict.decodeLine, if_neg hne, if_true,
      List.take_append_of_le_length hlen, hscan, List.drop_append_of_le_length hlen,
      Nat.not_lt.mpr hlen', if_false, ← List.cons_append, hexpand, List.append_assoc]

/-- At the end of a line it is decoded, if there is one. -/
theorem flush (h : Pending d acc out) :
    (if acc = [] then [] else [acc]).foldlM WwwFormEncodedDict.decodeLine d =
      .ok { decoded := out } := by
  split
  · rename_i hnil
    rw [h.nil hnil]
    rfl
  · rename_i hne
    have hline := h.decodeLine [] List.not_mem_nil (by rwa [List.append_nil])
    rw [List.append_nil, List.append_nil] at hline
    rw [List.foldlM_cons, hline]
    rfl

end Pending

theorem urlencode_cons (c : UInt8) (s : Bytes) :
    urlencode (c :: s) = (if isalnum c then [c] else escape c) ++ urlencode s :=
  List.flatMap_cons

theorem decodeLine_percent (out : Bytes) :
    decodeLine { decoded := out } [37] = .ok { nextStartsWithHex := true, decoded := out } :=
  if_pos rfl

/-- The decoder passes through an encoding from any point of a line on. -/
theorem foldlM_decodeLine (h : Pending d acc out) :
    (tokensFrom 37 acc (urlencode s)).foldlM decodeLine d =
      .ok { decoded := out ++ s.flatMap expand } := by
  induction s generalizing d acc out with
  | nil => exact h.flush.trans (by rw [List.flatMap_nil, List.append_nil])
  | cons c s ih =>
      rw [urlencode_cons, List.flatMap_cons, ← List.append_assoc]
      split
      · rename_i hc
        have hmem : 37 ∉ [c] := percent_notMem fun b hb => List.mem_singleton.mp hb ▸ hc
        rw [tokensFrom_append hmem, ih (h.snoc hc), expand_of_isalnum hc]
      · have hmem : 37 ∉ digits c := percent_notMem fun b hb => isalnum_of_mem_digits hb
        rw [escape_eq, List.cons_append, tokensFrom, if_pos rfl, List.foldlM_append, h.flush,
          Exception.ok_bind, List.foldlM_cons, decodeLine_percent, Exception.ok_bind,
          tokensFrom_append hmem, List.nil_append, ih (Pending.digits out c)]

/-! ## How long encodings are -/

theorem urlencode_append (s t : Bytes) : urlencode (s ++ t) = urlencode s ++ urlencode t :=
  List.flatMap_append

theorem urlencode_of_isalnum (h : ∀ c ∈ s, isalnum c = true) : urlencode s = s := by
  induction s with
  | nil => rfl
  | cons c s ih =>
      obtain ⟨hc, h⟩ := List.forall_mem_cons.mp h
      rw [urlencode_cons, if_pos hc, ih h, List.singleton_append]

theorem length_escape (c : UInt8) : (escape c).length = 2 + (expand c).length := by
  rw [escape_eq, List.length_cons, length_digits]
  omega

theorem length_urlencode_singleton_le (c : UInt8) : (urlencode [c]).length ≤ 4 := by
  have hle := (length_expand c).2
  rw [urlencode, List.flatMap_singleton]
  split
  · rw [List.length_singleton]
    decide
  · rw [length_escape]
    omega

/-- An encoding consists of characters that stand for themselves, and of `%`. -/
theorem isalnum_or_of_mem_urlencode (h : c ∈ urlencode s) : isalnum c = true ∨ c = 37 := by
  obtain ⟨b, -, hb⟩ := List.mem_flatMap.mp h
  split at hb
  · rename_i halnum
    exact .inl (List.mem_singleton.mp hb ▸ halnum)
  · rw [escape_eq] at hb
    rcases List.mem_cons.mp hb with rfl | hb
    · exact .inr rfl
    · exact .inl (isalnum_of_mem_digits hb)

theorem length_decodeLine {line : Bytes} {d' : Decoding}
    (hline : line = [37] ∨ ∀ c ∈ line, isalnum c = true) (h : decodeLine d line = .ok d') :
    (urlencode d'.decoded).length ≤ (urlencode d.decoded).length + 2 * line.length := by
  rw [decodeLine] at h
  split at h
  · cases h
    exact Nat.le_add_right _ _
  · rename_i hne
    have hline := hline.resolve_left hne
    split at h
    · split at h
      · cases h
      · split at h
        · cases h
        · rename_i digit _ hlen
          cases h
          have hrest : urlencode (line.drop 2) = line.drop 2 :=
            urlencode_of_isalnum fun c hc => hline c (List.mem_of_mem_drop hc)
          have hdigit := length_urlencode_singleton_le (UInt8.ofNat (Buffer.unsigned digit))
          rw [List.append_cons, urlencode_append, urlencode_append, hrest, List.length_append,
            List.length_append, List.length_drop]
          omega
    · cases h
      rw [urlencode_append, urlencode_of_isalnum hline, List.length_append]
      omega

theorem length_foldlM_decodeLine {lines : List Bytes} {d' : Decoding}
    (hlines : ∀ line ∈ lines, line = [37] ∨ ∀ c ∈ line, isalnum c = true)
    (h : lines.foldlM decodeLine d = .ok d') :
    (urlencode d'.decoded).length ≤ (urlencode d.decoded).length + 2 * lines.flatten.length := by
  induction lines generalizing d with
  | nil =>
      cases h
      exact Nat.le_add_right _ _
  | cons line lines ih =>
      obtain ⟨hline, hlines⟩ := List.forall_mem_cons.mp hlines
      rw [List.foldlM_cons, Exception.bind_eq_ok] at h
      obtain ⟨d₁, hd₁, h⟩ := h
      have hhead := length_decodeLine hline hd₁
      have htail := ih hlines h
      rw [List.flatten_cons, List.length_append]
      omega

/-- The encoding of what is decoded is at most twice as long as what is reached. -/
theorem length_urlencode_of_urldecode {t : Bytes}
    (hs : ∀ c ∈ s, isalnum c = true ∨ c = 37) (h : urldecode s = .ok t) :
    (urlencode t).length ≤ 2 * (reached s).length := by
  rw [urldecode, splitWithDelimiter_eq, Exception.bind_eq_ok] at h
  obtain ⟨d, hd, h⟩ := h
  cases h
  have hnil : (urlencode ({} : Decoding).decoded).length = 0 := rfl
  have hle := length_foldlM_decodeLine (fun line hline => ?_) hd
  · rwa [flatten_tokens, hnil, Nat.zero_add] at hle
  · rcases mem_tokens hline with rfl | ⟨hnotMem, -⟩
    · exact .inl rfl
    · refine .inr fun c hc => (hs c ?_).resolve_right fun h => hnotMem (h ▸ hc)
      have hmem : c ∈ reached s := by
        rw [← flatten_tokens 37 (reached s)]
        exact List.mem_flatten_of_mem hline hc
      exact List.mem_of_mem_take hmem

/-! ## Strings and back -/

/-- The length of the encoding of ASCII characters. -/
def encodedLength (s : Bytes) : Nat := (s.map fun c => if isalnum c then 1 else 3).sum

theorem length_urlencode (h : ∀ c ∈ s, c < 128) : (urlencode s).length = encodedLength s := by
  induction s with
  | nil => rfl
  | cons c s ih =>
      obtain ⟨hc, h⟩ := List.forall_mem_cons.mp h
      rw [urlencode_cons, List.length_append, ih h, encodedLength, encodedLength, List.map_cons,
        List.sum_cons]
      split
      · rfl
      · rw [length_escape, expand, if_pos hc]
        rfl

theorem flatMap_expand (h : ∀ c ∈ s, c < 128) : s.flatMap expand = s := by
  induction s with
  | nil => rfl
  | cons c s ih =>
      obtain ⟨hc, h⟩ := List.forall_mem_cons.mp h
      rw [List.flatMap_cons, ih h, expand, if_pos hc, List.singleton_append]

theorem length_le_flatMap_expand (s : Bytes) : s.length ≤ (s.flatMap expand).length := by
  induction s with
  | nil => exact Nat.le_refl 0
  | cons c s ih =>
      have hpos := (length_expand c).1
      rw [List.flatMap_cons, List.length_append, List.length_cons]
      omega

/-- Characters that are not ASCII come back as two. -/
theorem lt_of_flatMap_expand (h : s.flatMap expand = s) : ∀ c ∈ s, c < 128 := by
  induction s with
  | nil => exact fun c hc => absurd hc List.not_mem_nil
  | cons c s ih =>
      rw [List.flatMap_cons] at h
      by_cases hc : c < 128
      · rw [expand, if_pos hc, List.singleton_append, List.cons.injEq] at h
        exact List.forall_mem_cons.mpr ⟨hc, ih h.2⟩
      · have hlen := congrArg List.length h
        have hle := length_le_flatMap_expand s
        rw [expand, if_neg hc, List.length_append, List.length_cons, List.length_cons,
          List.length_cons, List.length_nil] at hlen
        omega

theorem urldecode_urlencode (h : (urlencode s).length < 2 ^ 31) :
    urldecode (urlencode s) = .ok (s.flatMap expand) := by
  rw [urldecode, splitWithDelimiter_eq, reached_of_lt h, tokens,
    foldlM_decodeLine (Pending.start []), List.nil_append]
  rfl

/-- A string comes back if it is ASCII and its encoding can be counted by an `int`. -/
theorem urldecode_urlencode_iff (s : Bytes) : urldecode (urlencode s) = .ok s ↔
    (∀ c ∈ s, c < 128) ∧ encodedLength s < 2 ^ 31 := by
  constructor
  · intro h
    have hlt : (urlencode s).length < 2 ^ 31 := by
      refine Nat.lt_of_not_le fun hle => ?_
      have hreached := three_mul_length_reached_lt hle
      have hdecoded := length_urlencode_of_urldecode
        (fun c hc => isalnum_or_of_mem_urlencode hc) h
      omega
    have hascii : ∀ c ∈ s, c < 128 :=
      lt_of_flatMap_expand (Except.ok.inj ((urldecode_urlencode hlt).symm.trans h))
    exact ⟨hascii, length_urlencode hascii ▸ hlt⟩
  · rintro ⟨hascii, hlt⟩
    rw [← length_urlencode hascii] at hlt
    rw [urldecode_urlencode hlt, flatMap_expand hascii]

/-- The character 128 is written as `%fff` and read as `\xff` and `f`. -/
theorem not_urldecode_urlencode : ¬ ∀ s : Bytes, urldecode (urlencode s) = .ok s := by
  intro h
  have h128 : urldecode (urlencode [128]) = .ok [255, 102] := by rfl
  cases h128.symm.trans (h [128])

/-! ## Dictionaries and back -/

variable {dict dict' : WwwFormEncodedDict} {e : Bytes × Bytes} {pair key value : Bytes}

/-- Keys that are not empty, and keys and values that are ASCII. -/
structure IsAscii (e : Bytes × Bytes) : Prop where
  ne_nil : e.1 ≠ []
  key : ∀ c ∈ e.1, c < 128
  value : ∀ c ∈ e.2, c < 128

/-- The length of the encoding of a dictionary. -/
def encodedSize (dict : WwwFormEncodedDict) : Nat :=
  (dict.entries.map fun e => encodedLength e.1 + encodedLength e.2 + 2).sum - 1

theorem notMem_urlencode (hc : isalnum c = false) (hne : c ≠ 37) : c ∉ urlencode s := fun h => by
  rcases isalnum_or_of_mem_urlencode h with halnum | rfl
  · cases halnum.symm.trans hc
  · exact hne rfl

theorem urlencode_ne_nil (h : s ≠ []) : urlencode s ≠ [] := by
  obtain ⟨c, s, rfl⟩ := List.exists_cons_of_ne_nil h
  rw [urlencode_cons]
  refine List.append_ne_nil_of_left_ne_nil ?_ _
  split
  · exact List.cons_ne_nil _ _
  · rw [escape_eq]
    exact List.cons_ne_nil _ _

/-- The length of the encoding of an entry, with the `&` behind it. -/
def weight (e : Bytes × Bytes) : Nat := (urlencode e.1).length + (urlencode e.2).length + 2

theorem length_encodePair (e : Bytes × Bytes) : (encodePair e).length + 1 = weight e := by
  rw [encodePair, List.length_append, List.length_append, weight,
    show (bytes "=").length = 1 from rfl]
  omega

theorem length_encode (dict : WwwFormEncodedDict) :
    (encode dict).length = (dict.entries.map weight).sum - 1 := by
  rw [encode, show bytes "&" = [38] from rfl, length_intercalate, List.map_map]
  exact congrArg (fun l : List Nat => l.sum - 1)
    (List.map_congr_left fun e _ => length_encodePair e)

theorem length_encode_of_isAscii (h : ∀ e ∈ dict.entries, IsAscii e) :
    (encode dict).length = encodedSize dict := by
  rw [length_encode, encodedSize]
  refine congrArg (fun l : List Nat => l.sum - 1) (List.map_congr_left fun e he => ?_)
  rw [weight, length_urlencode (h e he).key, length_urlencode (h e he).value]

/-- A pair with a value is read back. -/
theorem readPair_encodePair (h : IsAscii e) (hvalue : e.2 ≠ [])
    (hlt : (encodePair e).length < 2 ^ 31) :
    readPair dict (encodePair e) = .ok (dict.insert e.1 e.2) := by
  have hlen := length_encodePair e
  rw [weight] at hlen
  have hne : (61 : UInt8) ≠ 37 ∧ isalnum 61 = false := by decide
  have hsplit : split (encodePair e) 61 = [urlencode e.1, urlencode e.2] := by
    rw [split_eq, reached_of_lt hlt, encodePair, List.append_assoc,
      show bytes "=" ++ urlencode e.2 = 61 :: urlencode e.2 from rfl,
      segments_append_cons (notMem_urlencode hne.2 hne.1) (urlencode_ne_nil h.ne_nil),
      segments_of_notMem (notMem_urlencode hne.2 hne.1) (urlencode_ne_nil hvalue)]
  simp only [readPair, hsplit]
  rw [urldecode_urlencode (by omega), urldecode_urlencode (by omega), flatMap_expand h.key,
    flatMap_expand h.value]
  rfl

/-- A pair without a value is not read. -/
theorem readPair_encodePair_nil (h : IsAscii e) (hvalue : e.2 = [])
    (hlt : (encodePair e).length < 2 ^ 31) :
    readPair dict (encodePair e) = .error (.text "Parse error") := by
  have hne : (61 : UInt8) ≠ 37 ∧ isalnum 61 = false := by decide
  have hsplit : split (encodePair e) 61 = [urlencode e.1] := by
    rw [split_eq, reached_of_lt hlt, encodePair, hvalue, List.append_assoc,
      show bytes "=" ++ urlencode [] = [61] from rfl,
      segments_append_cons (notMem_urlencode hne.2 hne.1) (urlencode_ne_nil h.ne_nil)]
    rfl
  simp only [readPair, hsplit]

/-- The pairs, if all of the encoding is seen. -/
theorem split_encode (h : ∀ e ∈ dict.entries, IsAscii e) (hlt : (encode dict).length < 2 ^ 31) :
    split (encode dict) 38 = dict.entries.map encodePair := by
  have hne : (38 : UInt8) ≠ 37 ∧ isalnum 38 = false ∧ 38 ∉ bytes "=" := by decide
  rw [split_eq, reached_of_lt hlt, encode]
  refine segments_intercalate fun t ht => ?_
  obtain ⟨e, he, rfl⟩ := List.mem_map.mp ht
  refine ⟨fun hmem => ?_, List.append_ne_nil_of_left_ne_nil
    (List.append_ne_nil_of_left_ne_nil (urlencode_ne_nil (h e he).ne_nil) _) _⟩
  rcases List.mem_append.mp hmem with hmem | hmem
  · rcases List.mem_append.mp hmem with hmem | hmem
    · exact notMem_urlencode hne.2.1 hne.1 hmem
    · exact hne.2.2 hmem
  · exact notMem_urlencode hne.2.1 hne.1 hmem

/-- Every pair is shorter than the encoding that it stands in. -/
theorem length_encodePair_le (hlt : (encode dict).length < 2 ^ 31) (he : e ∈ dict.entries) :
    (encodePair e).length < 2 ^ 31 := by
  have hle := List.single_le_sum (fun n _ => Nat.zero_le n) _ (List.mem_map_of_mem he (f := weight))
  have hlen := length_encodePair e
  rw [length_encode] at hlt
  omega

/-- The entries are set one after the other. -/
theorem foldlM_readPair {l : List (Bytes × Bytes)}
    (h : ∀ e ∈ l, ∀ dict, readPair dict (encodePair e) = .ok (dict.insert e.1 e.2)) :
    (l.map encodePair).foldlM readPair dict = .ok (dict.setAll l) := by
  induction l generalizing dict with
  | nil => rfl
  | cons e l ih =>
      obtain ⟨he, h⟩ := List.forall_mem_cons.mp h
      rw [List.map_cons, List.foldlM_cons, he dict, Exception.ok_bind, ih h]
      rfl

/-- The constructor has read every pair if it has not thrown. -/
theorem readPair_of_foldlM {pairs : List Bytes} (h : pairs.foldlM readPair dict = .ok dict')
    (hpair : pair ∈ pairs) : ∃ d d', readPair d pair = .ok d' := by
  induction pairs generalizing dict with
  | nil => cases hpair
  | cons p pairs ih =>
      rw [List.foldlM_cons, Exception.bind_eq_ok] at h
      obtain ⟨d, hd, h⟩ := h
      rcases List.mem_cons.mp hpair with rfl | hpair
      · exact ⟨dict, d, hd⟩
      · exact ih h hpair

/-! ## Encodings that are not seen to their end -/

/-- What is read from a pair is three times as long when it is encoded, at most. -/
theorem sum_readPair (hpair : ∀ c ∈ pair, isalnum c = true ∨ c = 37 ∨ c = 61)
    (h : readPair dict pair = .ok dict') :
    (dict'.entries.map weight).sum ≤ (dict.entries.map weight).sum + 3 * pair.length := by
  have hsegment : ∀ t ∈ split pair 61, 1 ≤ t.length ∧ ∀ c ∈ t, isalnum c = true ∨ c = 37 := by
    intro t ht
    rw [split_eq] at ht
    obtain ⟨hnotMem, hne, hsub⟩ := mem_segments ht
    refine ⟨List.length_pos_iff.mpr hne, fun c hc => ?_⟩
    rcases hpair c (List.mem_of_mem_take (hsub hc)) with halnum | hc' | hc'
    · exact .inl halnum
    · exact .inr hc'
    · exact absurd (hc' ▸ hc) hnotMem
  have hsum : ((split pair 61).map List.length).sum ≤ pair.length :=
    calc ((split pair 61).map List.length).sum ≤ (reached pair).length := by
          rw [split_eq]
          exact sum_segments_le 61 (reached pair)
      _ ≤ pair.length := length_reached_le pair
  rw [readPair] at h
  split at h
  · rename_i k v hsplit
    rw [hsplit] at hsegment hsum
    obtain ⟨key, hkey, h⟩ := Exception.bind_eq_ok.mp h
    obtain ⟨value, hvalue, h⟩ := Exception.bind_eq_ok.mp h
    cases h
    obtain ⟨hk, hkchars⟩ := hsegment k List.mem_cons_self
    obtain ⟨hv, hvchars⟩ := hsegment v (List.mem_cons_of_mem k List.mem_cons_self)
    have hkey' := (length_urlencode_of_urldecode hkchars hkey).trans
      (Nat.mul_le_mul_left 2 (length_reached_le k))
    have hvalue' := (length_urlencode_of_urldecode hvchars hvalue).trans
      (Nat.mul_le_mul_left 2 (length_reached_le v))
    have hinsert : ((dict.insert key value).entries.map weight).sum ≤
        (dict.entries.map weight).sum + weight (key, value) := SortedMap.sum_insertEntry_le weight
    rw [show weight (key, value) = (urlencode key).length + (urlencode value).length + 2 from rfl]
      at hinsert
    simp only [List.map_cons, List.map_nil, List.sum_cons, List.sum_nil] at hsum
    omega
  · cases h

theorem sum_foldlM_readPair {pairs : List Bytes}
    (hpairs : ∀ pair ∈ pairs, ∀ c ∈ pair, isalnum c = true ∨ c = 37 ∨ c = 61)
    (h : pairs.foldlM readPair dict = .ok dict') :
    (dict'.entries.map weight).sum ≤
      (dict.entries.map weight).sum + 3 * (pairs.map List.length).sum := by
  induction pairs generalizing dict with
  | nil =>
      cases h
      exact Nat.le_add_right _ _
  | cons pair pairs ih =>
      obtain ⟨hpair, hpairs⟩ := List.forall_mem_cons.mp hpairs
      rw [List.foldlM_cons, Exception.bind_eq_ok] at h
      obtain ⟨d, hd, h⟩ := h
      have hhead := sum_readPair hpair hd
      have htail := ih hpairs h
      rw [List.map_cons, List.sum_cons]
      omega

/-- An encoding consists of characters that stand for themselves, of `%`, `=` and `&`. -/
theorem isalnum_or_of_mem_encode {c : UInt8} (h : c ∈ encode dict) :
    isalnum c = true ∨ c = 37 ∨ c = 61 ∨ c = 38 := by
  have hpair : ∀ e, c ∈ encodePair e → isalnum c = true ∨ c = 37 ∨ c = 61 ∨ c = 38 := by
    intro e hc
    rcases List.mem_append.mp hc with hc | hc
    · rcases List.mem_append.mp hc with hc | hc
      · exact (isalnum_or_of_mem_urlencode hc).imp_right .inl
      · exact .inr (.inr (.inl (List.mem_singleton.mp hc)))
    · exact (isalnum_or_of_mem_urlencode hc).imp_right .inl
  rcases mem_intercalate h with ⟨t, ht, hc⟩ | hc
  · obtain ⟨e, -, rfl⟩ := List.mem_map.mp ht
    exact hpair e hc
  · exact .inr (.inr (.inr hc))

/-- What is read back has been seen to its end. -/
theorem length_encode_lt (h : ofBody (encode dict) = .ok dict) :
    (encode dict).length < 2 ^ 31 := by
  refine Nat.lt_of_not_le fun hle => ?_
  have hreached := three_mul_length_reached_lt hle
  rw [ofBody, split_eq] at h
  have hsum := sum_foldlM_readPair (fun pair hpair c hc => ?_) h
  · have hsegments := sum_segments_le 38 (reached (encode dict))
    have hempty : ((SortedMap.empty : WwwFormEncodedDict).entries.map weight).sum = 0 := rfl
    have hlength := length_encode dict
    omega
  · obtain ⟨hnotMem, -, hsub⟩ := mem_segments hpair
    rcases isalnum_or_of_mem_encode (List.mem_of_mem_take (hsub hc)) with halnum | hc' | hc' | hc'
    · exact .inl halnum
    · exact .inr (.inl hc')
    · exact .inr (.inr hc')
    · exact absurd (hc' ▸ hc) hnotMem

/-- A dictionary comes back if no value is empty and its encoding can be counted by an `int`. -/
theorem ofBody_encode_iff (h : ∀ e ∈ dict.entries, IsAscii e) : ofBody (encode dict) = .ok dict ↔
    (∀ e ∈ dict.entries, e.2 ≠ []) ∧ encodedSize dict < 2 ^ 31 := by
  constructor
  · intro hback
    have hlt := length_encode_lt hback
    refine ⟨fun e he hnil => ?_, length_encode_of_isAscii h ▸ hlt⟩
    rw [ofBody, split_encode h hlt] at hback
    obtain ⟨d, d', hread⟩ := readPair_of_foldlM hback (List.mem_map_of_mem he)
    cases (readPair_encodePair_nil (h e he) hnil (length_encodePair_le hlt he)).symm.trans hread
  · rintro ⟨hvalues, hlt⟩
    rw [← length_encode_of_isAscii h] at hlt
    rw [ofBody, split_encode h hlt, foldlM_readPair fun e he _ => readPair_encodePair (h e he)
      (hvalues e he) (length_encodePair_le hlt he), SortedMap.setAll_entries]

/-- A dictionary with two values. -/
def twoValues : WwwFormEncodedDict :=
  (SortedMap.empty.insert (bytes "a b") (bytes "=")).insert (bytes "&") (bytes "50%")

theorem ofBody_encode_twoValues : ofBody (encode twoValues) = .ok twoValues := by
  have hentries : twoValues.entries = [(bytes "&", bytes "50%"), (bytes "a b", bytes "=")] := by
    decide
  refine (ofBody_encode_iff fun e he => ?_).mpr ⟨fun e he => ?_, by decide⟩
  · rw [hentries] at he
    obtain rfl | rfl := List.mem_pair.mp he <;>
    exact ⟨by decide, List.all_iff_forall_prop.mp (by decide),
      List.all_iff_forall_prop.mp (by decide)⟩
  · rw [hentries] at he
    obtain rfl | rfl := List.mem_pair.mp he <;> decide

/-- A value that is empty leaves `a=`, which has one part only. -/
theorem not_ofBody_encode : ¬ ∀ dict : WwwFormEncodedDict,
    (∀ e ∈ dict.entries, IsAscii e) → ofBody (encode dict) = .ok dict := by
  intro h
  have hback := h (SortedMap.empty.insert (bytes "a") []) fun e he => by
    obtain rfl : e = (bytes "a", []) := List.mem_singleton.mp he
    exact ⟨by decide, List.all_iff_forall_prop.mp (by decide), fun c hc => by cases hc⟩
  have hthrow : ofBody (encode (SortedMap.empty.insert (bytes "a") [])) =
      .error (.text "Parse error") := by rfl
  cases hthrow.symm.trans hback

end WwwFormEncodedDict

end Gunrock
