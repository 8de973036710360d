import Gunrock.StringUtils

/-!
# Base64

`Base64.cpp`.  What the loops have done after a number of passes is a `Progress`, so a loop that
never ends is one that is always running.  The bytes that `base64ToBytes` returns are given by the
stores to them, in order.

Where no `int` overflows, decoding is the decoding of the chunks of four characters, one after the
other (`base64ToBytes_eq`).
-/

namespace Gunrock

open StringUtils

/-- What has become of a call after some number of passes of its loop. -/
inductive Progress (α : Type) where
  | running
  | throws (e : Exception)
  | returned (a : α)
deriving DecidableEq, Repr

namespace Base64

/-! ## Characters -/

def getBase64CharValue (bits : UInt8) : Except Exception UInt8 :=
  if bits ≤ 25 then .ok (65 + bits)
  else if 26 ≤ bits ∧ bits ≤ 51 then .ok (97 + bits - 26)
  else if 52 ≤ bits ∧ bits ≤ 61 then .ok (48 + bits - 52)
  else if bits = 62 then .ok 43
  else if bits = 63 then .ok 47
  else .error (.text "invalid Base64 bit value")

def getBase64ByteValue (c : UInt8) : Except Exception UInt8 :=
  if 65 ≤ c ∧ c ≤ 90 then .ok (c - 65)
  else if 97 ≤ c ∧ c ≤ 122 then .ok (c - 97 + 26)
  else if 48 ≤ c ∧ c ≤ 57 then .ok (c - 48 + 52)
  else if c = 43 then .ok 62
  else if c = 47 then .ok 63
  else if c = 61 then .ok 0
  else .error (.text "error_invalid_base64_char")

/-! ## Encoding -/

/-- `bits` in `encodeBase64Chunk`. -/
def chunkBits (data : Bytes) (len : Int) : Nat :=
  let bits := (data.getD 0 0).toNat <<< 16
  let bits := if 1 < len then bits ||| (data.getD 1 0).toNat <<< 8 else bits
  if 2 < len then bits ||| (data.getD 2 0).toNat else bits

/-- `encodeBase64Chunk`, with the bytes from the pointer on and what is added to `ret`. -/
def encodeBase64Chunk (data : Bytes) (len : Int) : Except Exception Bytes :=
  if len ≤ 0 then .error (.text "invalid chunk size")
  else do
    let len := if 3 < len then 3 else len
    let bits := chunkBits data len
    let c₀ ← getBase64CharValue (UInt8.ofNat ((bits &&& 0x3f <<< 18) >>> 18))
    let c₁ ← getBase64CharValue (UInt8.ofNat ((bits &&& 0x3f <<< 12) >>> 12))
    if len = 1 then return [c₀, c₁, 61, 61]
    else
      let c₂ ← getBase64CharValue (UInt8.ofNat ((bits &&& 0x3f <<< 6) >>> 6))
      if len = 2 then return [c₀, c₁, c₂, 61]
      else
        let c₃ ← getBase64CharValue (UInt8.ofNat (bits &&& 0x3f))
        return [c₀, c₁, c₂, c₃]

/-- The loop of `bytesToBase64`, for a number of passes. -/
def encodeLoop (data : Bytes) (len : Int) : Nat → (idx : Int) → (ret : Bytes) → Progress Bytes
  | 0, _, _ => .running
  | n + 1, idx, ret =>
    if idx < len then
      match encodeBase64Chunk (data.drop idx.toNat) (int32 (len - idx)) with
      | .error e => .throws e
      | .ok chunk => encodeLoop data len n (int32 (idx + 3)) (ret ++ chunk)
    else .returned ret

def bytesToBase64 (data : Bytes) (len : Int) (passes : Nat) : Progress Bytes :=
  -- `reserve` takes a `size_t`, for which a negative number is too large
  if (int32 (int32 (len + 3) * 4)).tdiv 3 < 0 then .throws .lengthError
  else encodeLoop data len passes 0 []

/-! ## Decoding -/

/-- `numBytes` in `decodeBase64Chunk`: a `=` is allowed at the end of the last chunk only. -/
def countBytes (isLastChunk : Bool) (c₂ c₃ : UInt8) : Except Exception Nat :=
  if isLastChunk then
    if c₃ = 61 then
      if c₂ = 61 then .ok 1 else .ok 2
    else if c₂ = 61 then .error (.text "error_invalid_base64_char")
    else .ok 3
  else if c₂ = 61 ∨ c₃ = 61 then .error (.text "error_invalid_base64_char")
  else .ok 3

/-- `decodeBase64Chunk`, with the characters from the pointer on and what is stored from `bytes`
on. -/
def decodeBase64Chunk (str : Bytes) (isLastChunk : Bool) : Except Exception Bytes :=
  if str.getD 0 0 = 61 ∨ str.getD 1 0 = 61 then .error (.text "error_invalid_base64_char")
  else do
    let numBytes ← countBytes isLastChunk (str.getD 2 0) (str.getD 3 0)
    let v₀ ← getBase64ByteValue (str.getD 0 0)
    let v₁ ← getBase64ByteValue (str.getD 1 0)
    let v₂ ← getBase64ByteValue (str.getD 2 0)
    let v₃ ← getBase64ByteValue (str.getD 3 0)
    let bits := v₀.toNat <<< 18 ||| v₁.toNat <<< 12 ||| v₂.toNat <<< 6 ||| v₃.toNat
    let bytes := [UInt8.ofNat ((bits &&& 0x00ff0000) >>> 16)]
    let bytes :=
      if 2 ≤ numBytes then bytes ++ [UInt8.ofNat ((bits &&& 0x0000ff00) >>> 8)] else bytes
    return if numBytes = 3 then bytes ++ [UInt8.ofNat (bits &&& 0x000000ff)] else bytes

/-- The stores of some bytes, one after the other from a position on. -/
def place (p : Nat) : Bytes → List (Nat × UInt8)
  | [] => []
  | b :: bs => (p, b) :: place (p + 1) bs

/-- The loop of `base64ToBytes`, for a number of passes, with the stores so far.  `idx` and
`byteIdx` are of the type `unsigned int`. -/
def decodeLoop (s : Bytes) :
    Nat → (idx byteIdx : Nat) → List (Nat × UInt8) → Progress (List (Nat × UInt8))
  | 0, _, _, _ => .running
  | n + 1, idx, byteIdx, stores =>
    if idx < s.length then
      match decodeBase64Chunk (s.drop idx) (idx = s.length - 4) with
      | .error e => .throws e
      | .ok bytes =>
        decodeLoop s n ((idx + 4) % 2 ^ 32) ((byteIdx + 3) % 2 ^ 32)
          (stores ++ place byteIdx bytes)
    else .returned stores

/-- `size` and `s`, when the padding has been looked at. -/
def checkPadding (s : Bytes) : Except Exception (Int × Bytes) :=
  let rem := s.length % 4
  let size := int32 ((s.length / 4 * 3 : Nat) : Int)
  if rem = 0 then
    if s[s.length - 1]? = some 61 then
      if s[s.length - 2]? = some 61 then .ok (int32 (size - 2), s)
      else .ok (int32 (size - 1), s)
    else .ok (size, s)
  else if rem = 3 then .ok (int32 (size + 2), s ++ [61])
  else if rem = 2 then .ok (int32 (size + 1), s ++ [61, 61])
  else .error (.text "error_invalid_base64_string_length")

/-- What `base64ToBytes` returns. -/
structure Decoded where
  /-- What `*len` is set to, if it is set. -/
  len : Option Int
  /-- The stores to the array, if there is one. -/
  stores : List (Nat × UInt8)
deriving DecidableEq, Repr

def base64ToBytes (s : Bytes) (passes : Nat) : Progress Decoded :=
  if s = [] then .returned ⟨none, []⟩
  else
    match checkPadding s with
    | .error e => .throws e
    | .ok (size, s) =>
      -- `new uint8_t[size]`
      if size < 0 then .throws .badArrayNewLength
      else
        match decodeLoop s passes 0 0 [] with
        | .running => .running
        | .throws e => .throws e
        | .returned stores => .returned ⟨some size, stores⟩

/-! ## Chunks -/

/-- The three bytes that four values of six bits stand for. -/
def threeBytes (v₀ v₁ v₂ v₃ : UInt8) : Bytes :=
  let bits := v₀.toNat <<< 18 ||| v₁.toNat <<< 12 ||| v₂.toNat <<< 6 ||| v₃.toNat
  [UInt8.ofNat ((bits &&& 0x00ff0000) >>> 16), UInt8.ofNat ((bits &&& 0x0000ff00) >>> 8),
    UInt8.ofNat (bits &&& 0x000000ff)]

/-- A character of the alphabet. -/
def isBase64 (c : UInt8) : Bool := c != 61 && (getBase64ByteValue c).isOk

/-- How many bytes a chunk that ends in `c₂` and `c₃` has. -/
inductive HasBytes (isLastChunk : Bool) (c₂ c₃ : UInt8) : Nat → Prop
  | three (h₂ : c₂ ≠ 61) (h₃ : c₃ ≠ 61) : HasBytes isLastChunk c₂ c₃ 3
  | two (h : isLastChunk = true) (h₂ : c₂ ≠ 61) (h₃ : c₃ = 61) : HasBytes isLastChunk c₂ c₃ 2
  | one (h : isLastChunk = true) (h₂ : c₂ = 61) (h₃ : c₃ = 61) : HasBytes isLastChunk c₂ c₃ 1

variable {isLastChunk : Bool} {c c₀ c₁ c₂ c₃ : UInt8} {s bytes u : Bytes} {n p : Nat}

theorem countBytes_eq_ok : countBytes isLastChunk c₂ c₃ = .ok n ↔ HasBytes isLastChunk c₂ c₃ n := by
  constructor
  · intro h
    rw [countBytes] at h
    split at h
    · rename_i hlast
      split at h
      · rename_i h₃
        split at h
        · rename_i h₂
          cases h
          exact .one hlast h₂ h₃
        · rename_i h₂
          cases h
          exact .two hlast h₂ h₃
      · rename_i h₃
        split at h
        · cases h
        · rename_i h₂
          cases h
          exact .three h₂ h₃
    · split at h
      · cases h
      · rename_i hne
        cases h
        exact .three (fun h₂ => hne (.inl h₂)) fun h₃ => hne (.inr h₃)
  · rintro (⟨h₂, h₃⟩ | ⟨rfl, h₂, h₃⟩ | ⟨rfl, h₂, h₃⟩)
    · simp [countBytes, h₂, h₃]
    · simp [countBytes, h₂, h₃]
    · simp [countBytes, h₂, h₃]

/-- The alphabet in its order. -/
def base64Char (v : Nat) : UInt8 :=
  match getBase64CharValue (UInt8.ofNat v) with
  | .ok c => c
  | .error _ => 0

theorem base64Char_facts : ∀ v < 64, getBase64CharValue (UInt8.ofNat v) = .ok (base64Char v) ∧
    getBase64ByteValue (base64Char v) = .ok (UInt8.ofNat v) ∧ base64Char v ≠ 61 := by
  decide

/-- When a chunk is decoded, and to what. -/
theorem decodeBase64Chunk_eq_ok : decodeBase64Chunk [c₀, c₁, c₂, c₃] isLastChunk = .ok bytes ↔
    ∃ n v₀ v₁ v₂ v₃, HasBytes isLastChunk c₂ c₃ n ∧ c₀ ≠ 61 ∧ c₁ ≠ 61 ∧
      getBase64ByteValue c₀ = .ok v₀ ∧ getBase64ByteValue c₁ = .ok v₁ ∧
      getBase64ByteValue c₂ = .ok v₂ ∧ getBase64ByteValue c₃ = .ok v₃ ∧
      bytes = (threeBytes v₀ v₁ v₂ v₃).take n := by
  have htake : ∀ {n : Nat} (v₀ v₁ v₂ v₃ : UInt8), HasBytes isLastChunk c₂ c₃ n →
      (let bits := v₀.toNat <<< 18 ||| v₁.toNat <<< 12 ||| v₂.toNat <<< 6 ||| v₃.toNat
      let bytes := [UInt8.ofNat ((bits &&& 0x00ff0000) >>> 16)]
      let bytes := if 2 ≤ n then bytes ++ [UInt8.ofNat ((bits &&& 0x0000ff00) >>> 8)] else bytes
      if n = 3 then bytes ++ [UInt8.ofNat (bits &&& 0x000000ff)] else bytes) =
      (threeBytes v₀ v₁ v₂ v₃).take n := by
    rintro n v₀ v₁ v₂ v₃ (_ | _ | _)
    · rfl
    · rfl
    · rfl
  rw [decodeBase64Chunk]
  simp only [List.getD_cons_zero, List.getD_cons_succ]
  split
  · rename_i h
    constructor
    · intro h
      cases h
    · rintro ⟨_, _, _, _, _, -, h₀, h₁, -⟩
      exact absurd h (by simp [h₀, h₁])
  · rename_i h
    simp only [Exception.bind_eq_ok, countBytes_eq_ok]
    constructor
    · rintro ⟨n, hn, v₀, hv₀, v₁, hv₁, v₂, hv₂, v₃, hv₃, hbytes⟩
      exact ⟨n, v₀, v₁, v₂, v₃, hn, fun h₀ => h (.inl h₀), fun h₁ => h (.inr h₁), hv₀, hv₁, hv₂,
        hv₃, (Except.ok.inj hbytes).symm.trans (htake v₀ v₁ v₂ v₃ hn)⟩
    · rintro ⟨n, v₀, v₁, v₂, v₃, hn, -, -, hv₀, hv₁, hv₂, hv₃, rfl⟩
      exact ⟨n, hn, v₀, hv₀, v₁, hv₁, v₂, hv₂, v₃, hv₃, congrArg Except.ok (htake v₀ v₁ v₂ v₃ hn)⟩

theorem isBase64_iff : isBase64 c = true ↔ c ≠ 61 ∧ ∃ v, getBase64ByteValue c = .ok v := by
  rw [isBase64, Bool.and_eq_true, bne_iff_ne]
  refine and_congr_right fun _ => ?_
  cases getBase64ByteValue c with
  | error e => simp [Except.isOk, Except.toBool]
  | ok v => simp [Except.isOk, Except.toBool]

theorem getBase64ByteValue_equals : getBase64ByteValue 61 = .ok 0 := by
  decide

/-- The chunks that can be decoded, and how many bytes they give. -/
theorem decodeBase64Chunk_iff : (∃ bytes, decodeBase64Chunk [c₀, c₁, c₂, c₃] isLastChunk =
      .ok bytes ∧ bytes.length = n) ↔
    isBase64 c₀ = true ∧ isBase64 c₁ = true ∧ (c₂ = 61 ∨ isBase64 c₂ = true) ∧
      (c₃ = 61 ∨ isBase64 c₃ = true) ∧ HasBytes isLastChunk c₂ c₃ n := by
  have hlen : ∀ {n : Nat} (v₀ v₁ v₂ v₃ : UInt8), HasBytes isLastChunk c₂ c₃ n →
      ((threeBytes v₀ v₁ v₂ v₃).take n).length = n := by
    rintro n v₀ v₁ v₂ v₃ (_ | _ | _)
    · rfl
    · rfl
    · rfl
  have hvalue : ∀ {c : UInt8},
      (∃ v, getBase64ByteValue c = .ok v) ↔ c = 61 ∨ isBase64 c = true := by
    intro c
    rw [isBase64_iff]
    constructor
    · intro h
      exact or_iff_not_imp_left.mpr fun hc => ⟨hc, h⟩
    · rintro (rfl | ⟨-, h⟩)
      · exact ⟨0, getBase64ByteValue_equals⟩
      · exact h
  simp only [decodeBase64Chunk_eq_ok, isBase64_iff (c := c₀), isBase64_iff (c := c₁), ← hvalue]
  constructor
  · rintro ⟨bytes, ⟨n', v₀, v₁, v₂, v₃, hn, h₀, h₁, hv₀, hv₁, hv₂, hv₃, rfl⟩, hlength⟩
    rw [hlen v₀ v₁ v₂ v₃ hn] at hlength
    exact ⟨⟨h₀, v₀, hv₀⟩, ⟨h₁, v₁, hv₁⟩, ⟨v₂, hv₂⟩, ⟨v₃, hv₃⟩, hlength ▸ hn⟩
  · rintro ⟨⟨h₀, v₀, hv₀⟩, ⟨h₁, v₁, hv₁⟩, ⟨v₂, hv₂⟩, ⟨v₃, hv₃⟩, hn⟩
    exact ⟨_, ⟨n, v₀, v₁, v₂, v₃, hn, h₀, h₁, hv₀, hv₁, hv₂, hv₃, rfl⟩, hlen v₀ v₁ v₂ v₃ hn⟩

/-! ## The loop over the chunks -/

/-- The bytes that the chunks of a string are decoded to. -/
def decodeChunks : Bytes → Except Exception Bytes
  | c₀ :: c₁ :: c₂ :: c₃ :: rest => do
    let bytes ← decodeBase64Chunk [c₀, c₁, c₂, c₃] (rest = [])
    let others ← decodeChunks rest
    return bytes ++ others
  | _ => .ok []

theorem place_append (p : Nat) (bytes others : Bytes) :
    place p (bytes ++ others) = place p bytes ++ place (p + bytes.length) others := by
  induction bytes generalizing p with
  | nil => rfl
  | cons b bytes ih =>
      rw [List.cons_append, place, place, ih, List.cons_append, List.length_cons, Nat.add_assoc,
        Nat.add_comm 1]

theorem mem_place {q : Nat} :
    q ∈ (place p bytes).map Prod.fst ↔ p ≤ q ∧ q < p + bytes.length := by
  induction bytes generalizing p with
  | nil => simp [place]
  | cons b bytes ih =>
      rw [place, List.map_cons, List.mem_cons, ih, List.length_cons]
      omega

/-- There is no `=` before the last chunk. -/
theorem isBase64_of_not_isLastChunk (h : decodeBase64Chunk [c₀, c₁, c₂, c₃] false = .ok bytes) :
    isBase64 c₀ = true ∧ isBase64 c₁ = true ∧ isBase64 c₂ = true ∧ isBase64 c₃ = true := by
  obtain ⟨h₀, h₁, h₂, h₃, hn⟩ := decodeBase64Chunk_iff.mp ⟨bytes, h, rfl⟩
  generalize bytes.length = n at hn
  cases hn with
  | three hne₂ hne₃ => exact ⟨h₀, h₁, h₂.resolve_left hne₂, h₃.resolve_left hne₃⟩
  | two h => cases h
  | one h => cases h

/-- Every chunk but the last has three bytes. -/
theorem length_of_not_isLastChunk
    (h : decodeBase64Chunk [c₀, c₁, c₂, c₃] false = .ok bytes) : bytes.length = 3 := by
  obtain ⟨-, -, -, -, hn⟩ := decodeBase64Chunk_iff.mp ⟨bytes, h, rfl⟩
  generalize bytes.length = n at hn
  cases hn with
  | three => rfl
  | two h => cases h
  | one h => cases h

theorem eq_nil_of_short {t : Bytes} (ht : t.length % 4 = 0)
    (hshort : ∀ c₀ c₁ c₂ c₃ rest, t = c₀ :: c₁ :: c₂ :: c₃ :: rest → False) : t = [] := by
  rcases t with _ | ⟨c₀, _ | ⟨c₁, _ | ⟨c₂, _ | ⟨c₃, rest⟩⟩⟩⟩
  · rfl
  · cases ht
  · cases ht
  · cases ht
  · exact (hshort c₀ c₁ c₂ c₃ rest rfl).elim

theorem decodeChunks_of_last (h : decodeBase64Chunk [c₀, c₁, c₂, c₃] true = .ok bytes) :
    decodeChunks [c₀, c₁, c₂, c₃] = .ok bytes := by
  rw [decodeChunks, show decide (([] : Bytes) = []) = true from rfl, h]
  exact congrArg Except.ok (List.append_nil bytes)

/-- What the loop returns or throws when it has passed over `j` chunks. -/
theorem decodeLoop_eq {t : Bytes} {j : Nat} {stores : List (Nat × UInt8)}
    (ht : t.length % 4 = 0) (hs : s.drop (4 * j) = t) (hlen : s.length = 4 * j + t.length)
    (hlt : s.length < 2 ^ 32) (hn : t.length < 4 * n) :
    decodeLoop s n (4 * j) (3 * j) stores =
      match decodeChunks t with
      | .error e => .throws e
      | .ok bytes => .returned (stores ++ place (3 * j) bytes) := by
  induction t using decodeChunks.induct generalizing n j stores with
  | case1 c₀ c₁ c₂ c₃ rest ih =>
      obtain ⟨n, rfl⟩ : ∃ m, n = m + 1 := ⟨n - 1, by simp only [List.length_cons] at hn; omega⟩
      simp only [List.length_cons] at ht hlen hn
      have hlast : (4 * j = s.length - 4 : Bool) = decide (rest = []) := by
        rw [decide_eq_decide, ← List.length_eq_zero_iff]
        omega
      have hchunk : decodeBase64Chunk (s.drop (4 * j)) (4 * j = s.length - 4) =
          decodeBase64Chunk [c₀, c₁, c₂, c₃] (rest = []) := by
        rw [hs, hlast]
        rfl
      have hdrop : s.drop (4 * (j + 1)) = rest := by
        rw [Nat.mul_add, ← List.drop_drop, hs]
        rfl
      rw [decodeLoop, if_pos (by omega), hchunk, decodeChunks]
      cases hbytes : decodeBase64Chunk [c₀, c₁, c₂, c₃] (rest = []) with
      | error e => rfl
      | ok bytes =>
          have hidx : (4 * j + 4) % 2 ^ 32 = 4 * (j + 1) := by omega
          have hbyteIdx : (3 * j + 3) % 2 ^ 32 = 3 * (j + 1) := by omega
          simp only [hidx, hbyteIdx, Exception.ok_bind]
          rw [ih (by omega) hdrop (by omega) (by omega)]
          cases hothers : decodeChunks rest with
          | error e => rfl
          | ok others =>
              simp only [Exception.ok_bind]
              refine congrArg Progress.returned ?_
              rw [List.append_assoc, place_append]
              by_cases hrest : rest = []
              · subst hrest
                cases hothers
                rfl
              · have hlength : bytes.length = 3 := by
                  rw [decide_eq_false hrest] at hbytes
                  exact length_of_not_isLastChunk hbytes
                rw [hlength, Nat.mul_add]
  | case2 t hshort =>
      obtain rfl := eq_nil_of_short ht hshort
      obtain ⟨n, rfl⟩ : ∃ m, n = m + 1 := ⟨n - 1, by omega⟩
      rw [decodeLoop, if_neg (by rw [hlen]; simp), decodeChunks]
      · simp [place]
      · exact hshort

/-! ## Lengths and padding -/

/-- How many of the last two characters are taken for padding. -/
def padding (s : Bytes) : Nat :=
  if s[s.length - 1]? = some 61 then if s[s.length - 2]? = some 61 then 2 else 1 else 0

/-- The number of bytes that a string announces. -/
def announced (s : Bytes) : Nat :=
  if s.length % 4 = 0 then s.length / 4 * 3 - padding s
  else s.length / 4 * 3 + (s.length % 4 - 1)

/-- The string with the padding that it lacks. -/
def padded (s : Bytes) : Bytes := s ++ List.replicate ((4 - s.length % 4) % 4) 61

theorem int32_int32_add (a b : Int) : int32 (int32 a + b) = int32 (a + b) := by
  have hmod : (int32 a + b) % 2 ^ 32 = (a + b) % 2 ^ 32 := by
    rw [int32, Buffer.signed, Buffer.unsigned]
    split <;> omega
  change Buffer.signed ((int32 a + b) % 2 ^ 32).toNat = Buffer.signed ((a + b) % 2 ^ 32).toNat
  rw [hmod]

theorem checkPadding_eq (hne : s ≠ []) (hmod : s.length % 4 ≠ 1) :
    checkPadding s = .ok (int32 (announced s), padded s) := by
  have hpos : 1 ≤ s.length := List.length_pos_iff.mpr hne
  simp only [checkPadding, announced, padded]
  split
  · rename_i h0
    rw [h0, List.replicate_zero, List.append_nil, padding]
    have hadd : ∀ n : Nat, n ≤ 3 → int32 (int32 ((s.length / 4 * 3 : Nat) : Int) - n) =
        int32 ((s.length / 4 * 3 - n : Nat) : Int) := by
      intro n hn
      rw [Int.sub_eq_add_neg, int32_int32_add, ← Int.sub_eq_add_neg, Int.ofNat_sub (by omega)]
    split
    · split
      · rw [← hadd 2 (by decide)]
        rfl
      · rw [← hadd 1 (by decide)]
        rfl
    · rfl
  · split
    · rename_i h3
      rw [h3, int32_int32_add]
      rfl
    · split
      · rename_i h2
        rw [h2, int32_int32_add]
        rfl
      · omega

theorem length_padded (s : Bytes) : (padded s).length % 4 = 0 := by
  rw [padded, List.length_append, List.length_replicate]
  omega

theorem announced_bounds (hmod : s.length % 4 ≠ 1) :
    announced s ≤ (padded s).length / 4 * 3 ∧ (padded s).length / 4 * 3 ≤ announced s + 2 := by
  have hpadding : padding s ≤ 2 := by
    rw [padding]
    split
    · split
      · exact Nat.le_refl 2
      · exact Nat.le_succ 1
    · exact Nat.zero_le 2
  rw [announced, padded, List.length_append, List.length_replicate]
  split <;> omega

theorem equals_notMem (hu : ∀ c ∈ u, isBase64 c = true) : 61 ∉ u := fun h =>
  (isBase64_iff.mp (hu 61 h)).1 rfl

/-- The padding of a string that is not much shorter than a chunk is what is taken for it. -/
theorem padding_eq (hp : p ≤ 2) (hu : 61 ∉ u) (hne : u ≠ []) :
    padding (u ++ List.replicate p 61) = p := by
  have hlast : u[u.length - 1]? ≠ some 61 := fun h => hu (List.mem_of_getElem? h)
  have hpos : 1 ≤ u.length := List.length_pos_iff.mpr hne
  have hlt : u.length - 1 < u.length := by omega
  rw [padding, List.length_append, List.length_replicate]
  obtain rfl | rfl | rfl : p = 0 ∨ p = 1 ∨ p = 2 := by omega
  · rw [if_neg]
    rwa [List.replicate_zero, List.append_nil]
  · rw [if_pos, if_neg]
    · rwa [List.getElem?_append_left (by omega), show u.length + 1 - 2 = u.length - 1 by omega]
    · rw [List.getElem?_append_right (by omega)]
      simp
  · rw [if_pos, if_pos]
    · rw [List.getElem?_append_right (by omega)]
      simp
    · rw [List.getElem?_append_right (by omega), show u.length + 2 - 1 - u.length = 1 by omega]
      rfl

/-- A negative number of bytes cannot be allocated. -/
theorem base64ToBytes_of_le (hne : s ≠ []) (hmod : s.length % 4 ≠ 1)
    (hle : 2 ^ 31 ≤ announced s % 2 ^ 32) (n : Nat) :
    base64ToBytes s n = .throws .badArrayNewLength := by
  have hneg : int32 (announced s) < 0 := by
    rw [int32, Buffer.signed, Buffer.unsigned]
    split <;> omega
  rw [base64ToBytes, if_neg hne, checkPadding_eq hne hmod]
  exact if_pos hneg

/-- Otherwise the loop is entered. -/
theorem base64ToBytes_of_lt (hne : s ≠ []) (hmod : s.length % 4 ≠ 1)
    (hlt : announced s % 2 ^ 32 < 2 ^ 31) (n : Nat) :
    base64ToBytes s n =
      match decodeLoop (padded s) n 0 0 [] with
      | .running => .running
      | .throws e => .throws e
      | .returned stores => .returned ⟨some (int32 (announced s)), stores⟩ := by
  have hpos : ¬ int32 (announced s) < 0 := by
    rw [int32, Buffer.signed, Buffer.unsigned]
    split <;> omega
  rw [base64ToBytes, if_neg hne, checkPadding_eq hne hmod]
  exact if_neg hpos

/-- A number of bytes below `2 ^ 31` is what `*len` is set to. -/
theorem base64ToBytes_eq (hne : s ≠ []) (hmod : s.length % 4 ≠ 1) (hlt : announced s < 2 ^ 31)
    (hlength : (padded s).length < 2 ^ 32) (hn : (padded s).length < 4 * n) :
    base64ToBytes s n =
      match decodeChunks (padded s) with
      | .error e => .throws e
      | .ok bytes => .returned ⟨some (announced s), place 0 bytes⟩ := by
  have hloop : decodeLoop (padded s) n 0 0 [] = _ :=
    decodeLoop_eq (j := 0) (length_padded s) List.drop_zero (Nat.zero_add _).symm hlength hn
  rw [base64ToBytes_of_lt hne hmod (by omega), int32_of_fits (by constructor <;> omega), hloop]
  cases decodeChunks (padded s) with
  | error e => rfl
  | ok bytes => rfl

end Base64

end Gunrock
