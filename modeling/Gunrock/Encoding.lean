import Gunrock.Base64
import Mathlib.Data.List.DropRight

/-!
# Encoding and decoding

What `bytesToBase64` returns is decoded to the bytes (`decodesTo_encodeChunks`).  It returns unless
its estimate of the length is a negative `int`, or its index becomes one.
-/

namespace Gunrock

open StringUtils

namespace Base64

variable {data : Bytes} {a b : UInt8} {s : Bytes} {n : Nat}

/-! ## Bits -/

/-- `k` bits of `x` from bit `i` on. -/
theorem and_shift (x i k : Nat) : (x &&& (2 ^ k - 1) <<< i) >>> i = x / 2 ^ i % 2 ^ k := by
  rw [Nat.shiftRight_and_distrib, Nat.shiftLeft_shiftRight, Nat.and_two_pow_sub_one_eq_mod,
    Nat.shiftRight_eq_div_pow]

/-- Bits above others. -/
theorem shift_or {a b i : Nat} (hb : b < 2 ^ i) : a <<< i ||| b = a * 2 ^ i + b := by
  rw [← Nat.shiftLeft_add_eq_or_of_lt hb, Nat.shiftLeft_eq]

/-- The bits of three bytes. -/
def word (a b c : UInt8) : Nat := a.toNat * 2 ^ 16 + b.toNat * 2 ^ 8 + c.toNat

theorem word_lt (a b c : UInt8) : word a b c < 2 ^ 24 := by
  have ha := a.toNat_lt
  have hb := b.toNat_lt
  have hc := c.toNat_lt
  rw [word]
  omega

/-- Six bits of a word. -/
def sextet (x i : Nat) : Nat := x / 2 ^ (6 * i) % 2 ^ 6

theorem sextet_lt (x i : Nat) : sextet x i < 64 := Nat.mod_lt _ (by decide)

theorem toNat_sextet (x i : Nat) : (UInt8.ofNat (sextet x i)).toNat = sextet x i := by
  have hlt := sextet_lt x i
  rw [UInt8.toNat_ofNat']
  omega

theorem threeBytes_sextet (a b c : UInt8) :
    threeBytes (.ofNat (sextet (word a b c) 3)) (.ofNat (sextet (word a b c) 2))
      (.ofNat (sextet (word a b c) 1)) (.ofNat (sextet (word a b c) 0)) = [a, b, c] := by
  have ha := a.toNat_lt
  have hb := b.toNat_lt
  have hc := c.toNat_lt
  have hlt := word_lt a b c
  have h₃ := sextet_lt (word a b c) 3
  have h₂ := sextet_lt (word a b c) 2
  have h₁ := sextet_lt (word a b c) 1
  have h₀ := sextet_lt (word a b c) 0
  have hbits : sextet (word a b c) 3 <<< 18 ||| sextet (word a b c) 2 <<< 12 |||
      sextet (word a b c) 1 <<< 6 ||| sextet (word a b c) 0 = word a b c := by
    rw [Nat.or_assoc, Nat.or_assoc, shift_or (a := sextet (word a b c) 1) (by omega),
      shift_or (a := sextet (word a b c) 2) (by omega), shift_or (by omega)]
    simp only [sextet]
    omega
  simp only [threeBytes, toNat_sextet, hbits]
  rw [show (word a b c &&& 0x00ff0000) >>> 16 = _ from and_shift (word a b c) 16 8,
    show (word a b c &&& 0x0000ff00) >>> 8 = _ from and_shift (word a b c) 8 8,
    show word a b c &&& 0x000000ff = _ from Nat.and_two_pow_sub_one_eq_mod (word a b c) 8]
  have hbytes : word a b c / 2 ^ 16 % 2 ^ 8 = a.toNat ∧ word a b c / 2 ^ 8 % 2 ^ 8 = b.toNat ∧
      word a b c % 2 ^ 8 = c.toNat := by
    rw [word]
    omega
  rw [hbytes.1, hbytes.2.1, hbytes.2.2, UInt8.ofNat_toNat, UInt8.ofNat_toNat, UInt8.ofNat_toNat]

/-! ## Encodings -/

/-- The character for six bits of a word. -/
def sextetChar (x i : Nat) : UInt8 := base64Char (sextet x i)

/-- The encoding of some bytes, three at a time. -/
def encodeChunks : Bytes → Bytes
  | [] => []
  | [a] => [sextetChar (word a 0 0) 3, sextetChar (word a 0 0) 2, 61, 61]
  | [a, b] =>
    [sextetChar (word a b 0) 3, sextetChar (word a b 0) 2, sextetChar (word a b 0) 1, 61]
  | a :: b :: c :: rest =>
    sextetChar (word a b c) 3 :: sextetChar (word a b c) 2 :: sextetChar (word a b c) 1 ::
      sextetChar (word a b c) 0 :: encodeChunks rest

theorem getBase64CharValue_sextet (x i : Nat) :
    getBase64CharValue (.ofNat (sextet x i)) = .ok (sextetChar x i) :=
  (base64Char_facts _ (sextet_lt x i)).1

theorem getBase64ByteValue_sextetChar (x i : Nat) :
    getBase64ByteValue (sextetChar x i) = .ok (.ofNat (sextet x i)) :=
  (base64Char_facts _ (sextet_lt x i)).2.1

theorem sextetChar_ne (x i : Nat) : sextetChar x i ≠ 61 :=
  (base64Char_facts _ (sextet_lt x i)).2.2

theorem isBase64_sextetChar (x i : Nat) : isBase64 (sextetChar x i) = true :=
  isBase64_iff.mpr ⟨sextetChar_ne x i, _, getBase64ByteValue_sextetChar x i⟩

theorem getBase64CharValue_bits (x : Nat) :
    getBase64CharValue (.ofNat ((x &&& 0x3f <<< 18) >>> 18)) = .ok (sextetChar x 3) ∧
    getBase64CharValue (.ofNat ((x &&& 0x3f <<< 12) >>> 12)) = .ok (sextetChar x 2) ∧
    getBase64CharValue (.ofNat ((x &&& 0x3f <<< 6) >>> 6)) = .ok (sextetChar x 1) ∧
    getBase64CharValue (.ofNat (x &&& 0x3f)) = .ok (sextetChar x 0) := by
  rw [show (x &&& 0x3f <<< 18) >>> 18 = _ from and_shift x 18 6,
    show (x &&& 0x3f <<< 12) >>> 12 = _ from and_shift x 12 6,
    show (x &&& 0x3f <<< 6) >>> 6 = _ from and_shift x 6 6,
    show x &&& 0x3f = _ from Nat.and_two_pow_sub_one_eq_mod x 6]
  refine ⟨getBase64CharValue_sextet x 3, getBase64CharValue_sextet x 2,
    getBase64CharValue_sextet x 1, ?_⟩
  have hzero := getBase64CharValue_sextet x 0
  rwa [sextet, Nat.mul_zero, Nat.pow_zero, Nat.div_one] at hzero

/-- The characters of a chunk. -/
theorem encodeBase64Chunk_eq {len : Int} (hlen : 0 < len) {x : Nat}
    (hx : chunkBits data (if 3 < len then 3 else len) = x) :
    encodeBase64Chunk data len = .ok
      (if len = 1 then [sextetChar x 3, sextetChar x 2, 61, 61]
      else if len = 2 then [sextetChar x 3, sextetChar x 2, sextetChar x 1, 61]
      else [sextetChar x 3, sextetChar x 2, sextetChar x 1, sextetChar x 0]) := by
  obtain ⟨h₃, h₂, h₁, h₀⟩ := getBase64CharValue_bits x
  rw [encodeBase64Chunk, if_neg (Int.not_le.mpr hlen)]
  have hone : (if 3 < len then 3 else len) = 1 ↔ len = 1 := by
    split <;> omega
  have htwo : (if 3 < len then 3 else len) = 2 ↔ len = 2 := by
    split <;> omega
  change (getBase64CharValue
    (.ofNat ((chunkBits data (if 3 < len then 3 else len) &&& 0x3f <<< 18) >>> 18)) >>= _) = _
  generalize (if 3 < len then 3 else len) = l at hx hone htwo ⊢
  rw [hx, h₃, Exception.ok_bind, h₂, Exception.ok_bind]
  split
  · rename_i h
    rw [if_pos (hone.mp h)]
    rfl
  · rename_i h
    rw [if_neg fun h' => h (hone.mpr h'), h₁, Exception.ok_bind]
    split
    · rename_i h
      rw [if_pos (htwo.mp h)]
      rfl
    · rename_i h
      rw [if_neg fun h' => h (htwo.mpr h'), h₀]
      rfl

theorem chunkBits_eq (a b c : UInt8) (rest : Bytes) :
    chunkBits [a] 1 = word a 0 0 ∧ chunkBits [a, b] 2 = word a b 0 ∧
      chunkBits (a :: b :: c :: rest) 3 = word a b c := by
  have hb := b.toNat_lt
  have hc := c.toNat_lt
  refine ⟨?_, ?_, ?_⟩
  · change a.toNat <<< 16 = word a 0 0
    simp [word, Nat.shiftLeft_eq]
  · change a.toNat <<< 16 ||| b.toNat <<< 8 = word a b 0
    rw [shift_or (by rw [Nat.shiftLeft_eq]; omega), Nat.shiftLeft_eq]
    simp [word]
  · change a.toNat <<< 16 ||| b.toNat <<< 8 ||| c.toNat = word a b c
    rw [Nat.or_assoc, shift_or (a := b.toNat) hc, shift_or (by omega), word, Nat.add_assoc]

/-- A pass of the loop. -/
theorem encodeBase64Chunk_of_ne_nil (hne : data ≠ []) :
    ∃ chunk, encodeBase64Chunk data data.length = .ok chunk ∧
      encodeChunks data = chunk ++ encodeChunks (data.drop 3) := by
  rcases data with _ | ⟨a, _ | ⟨b, _ | ⟨c, rest⟩⟩⟩
  · exact absurd rfl hne
  · exact ⟨_, encodeBase64Chunk_eq Int.one_pos (chunkBits_eq a a a []).1, rfl⟩
  · have hlen : (0 : Int) < [a, b].length := Int.natCast_pos.mpr Nat.two_pos
    exact ⟨_, encodeBase64Chunk_eq hlen (chunkBits_eq a b a []).2.1, rfl⟩
  · have hlen : (a :: b :: c :: rest).length = rest.length + 3 := rfl
    have hthree : (if 3 < ((a :: b :: c :: rest).length : Int) then 3
        else ((a :: b :: c :: rest).length : Int)) = 3 := by
      split <;> omega
    have hbits := (chunkBits_eq a b c rest).2.2
    rw [← hthree] at hbits
    refine ⟨_, encodeBase64Chunk_eq (by omega) hbits, ?_⟩
    rw [if_neg (by omega), if_neg (by omega), encodeChunks]
    rfl

/-- The loop adds the encoding of the bytes that it has still to pass over. -/
theorem encodeLoop_eq {j : Nat} {ret : Bytes} (hlen : data.length < 2 ^ 31 - 1)
    (hj : 3 * j < data.length + 3) (hn : data.length + 3 ≤ 3 * (j + n)) :
    encodeLoop data data.length n (3 * j : Nat) ret =
      .returned (ret ++ encodeChunks (data.drop (3 * j))) := by
  induction n generalizing j ret with
  | zero => omega
  | succ n ih =>
      rw [encodeLoop]
      split
      · rename_i hlt
        have hne : data.drop (3 * j) ≠ [] := by
          rw [ne_eq, List.drop_eq_nil_iff]
          omega
        obtain ⟨chunk, hchunk, happend⟩ := encodeBase64Chunk_of_ne_nil hne
        have hrest : int32 (data.length - (3 * j : Nat)) = (data.drop (3 * j)).length := by
          rw [int32_of_fits (by constructor <;> omega), List.length_drop]
          omega
        have hnext : int32 ((3 * j : Nat) + 3) = (3 * (j + 1) : Nat) := by
          rw [int32_of_fits (by constructor <;> omega)]
          omega
        rw [hrest, Int.toNat_natCast, hchunk, hnext]
        simp only
        rw [ih (by omega) (by omega), happend, List.drop_drop, List.append_assoc]
        rfl
      · rename_i hge
        rw [List.drop_eq_nil_of_le (by omega), encodeChunks, List.append_nil]

/-! ## Encoding and decoding -/

/-- The bits that there are no bytes for. -/
theorem sextet_word_zero (a b : UInt8) :
    sextet (word a b 0) 0 = 0 ∧ sextet (word a 0 0) 1 = 0 := by
  simp only [sextet, word, UInt8.toNat_zero]
  omega

/-- The chunks of an encoding are decoded to the bytes. -/
theorem decodeChunks_encodeChunks (data : Bytes) : decodeChunks (encodeChunks data) = .ok data := by
  induction data using encodeChunks.induct with
  | case1 => rfl
  | case2 a =>
      have hbytes := threeBytes_sextet a 0 0
      rw [(sextet_word_zero a 0).1, (sextet_word_zero a 0).2] at hbytes
      refine decodeChunks_of_last (decodeBase64Chunk_eq_ok.mpr ?_)
      refine ⟨1, _, _, 0, 0, .one rfl rfl rfl, sextetChar_ne _ 3, sextetChar_ne _ 2,
        getBase64ByteValue_sextetChar _ 3, getBase64ByteValue_sextetChar _ 2,
        getBase64ByteValue_equals, getBase64ByteValue_equals, ?_⟩
      exact (congrArg (List.take 1) hbytes).symm
  | case3 a b =>
      have hbytes := threeBytes_sextet a b 0
      rw [(sextet_word_zero a b).1] at hbytes
      refine decodeChunks_of_last (decodeBase64Chunk_eq_ok.mpr ?_)
      refine ⟨2, _, _, _, 0, .two rfl (sextetChar_ne _ 1) rfl, sextetChar_ne _ 3,
        sextetChar_ne _ 2, getBase64ByteValue_sextetChar _ 3, getBase64ByteValue_sextetChar _ 2,
        getBase64ByteValue_sextetChar _ 1, getBase64ByteValue_equals, ?_⟩
      exact (congrArg (List.take 2) hbytes).symm
  | case4 a b c rest ih =>
      have hchunk : decodeBase64Chunk [sextetChar (word a b c) 3, sextetChar (word a b c) 2,
          sextetChar (word a b c) 1, sextetChar (word a b c) 0] (encodeChunks rest = []) =
          .ok [a, b, c] := by
        refine decodeBase64Chunk_eq_ok.mpr ⟨3, _, _, _, _, .three (sextetChar_ne _ 1)
          (sextetChar_ne _ 0), sextetChar_ne _ 3, sextetChar_ne _ 2,
          getBase64ByteValue_sextetChar _ 3, getBase64ByteValue_sextetChar _ 2,
          getBase64ByteValue_sextetChar _ 1, getBase64ByteValue_sextetChar _ 0, ?_⟩
        rw [threeBytes_sextet]
        rfl
      rw [encodeChunks, decodeChunks, hchunk, ih]
      rfl

/-- How an encoding is padded. -/
theorem encodeChunks_eq_append (data : Bytes) : ∃ u : Bytes,
    encodeChunks data = u ++ List.replicate ((3 - data.length % 3) % 3) 61 ∧
      (∀ c ∈ u, isBase64 c = true) ∧ u.length = data.length + (data.length + 2) / 3 := by
  induction data using encodeChunks.induct with
  | case1 => exact ⟨[], rfl, by simp, rfl⟩
  | case2 a =>
      refine ⟨[sextetChar (word a 0 0) 3, sextetChar (word a 0 0) 2], rfl, ?_, by simp⟩
      simp [isBase64_sextetChar]
  | case3 a b =>
      refine ⟨[sextetChar (word a b 0) 3, sextetChar (word a b 0) 2, sextetChar (word a b 0) 1],
        rfl, ?_, by simp⟩
      simp [isBase64_sextetChar]
  | case4 a b c rest ih =>
      obtain ⟨u, hu, hchars, hlen⟩ := ih
      refine ⟨sextetChar (word a b c) 3 :: sextetChar (word a b c) 2 :: sextetChar (word a b c) 1 ::
        sextetChar (word a b c) 0 :: u, ?_, ?_, ?_⟩
      · rw [encodeChunks, hu, List.length_cons, List.length_cons, List.length_cons,
          Nat.add_mod_right rest.length 3]
        rfl
      · simp only [List.forall_mem_cons]
        exact ⟨isBase64_sextetChar _ _, isBase64_sextetChar _ _, isBase64_sextetChar _ _,
          isBase64_sextetChar _ _, hchars⟩
      · simp only [List.length_cons]
        omega

/-! ## There and back -/

/-- Encoding returns `s`. -/
def Encodes (data s : Bytes) : Prop := ∃ n, bytesToBase64 data data.length n = .returned s

/-- Decoding returns `data` and its length. -/
def DecodesTo (s data : Bytes) : Prop :=
  ∃ n, base64ToBytes s n = .returned ⟨some data.length, place 0 data⟩

/-- An encoding is decoded to the bytes, also if the padding is removed. -/
def RoundTrips (data : Bytes) : Prop :=
  ∃ s, Encodes data s ∧ DecodesTo s data ∧ DecodesTo (s.rdropWhile (· == 61)) data

theorem rdropWhile_append_replicate {u : Bytes} (hu : 61 ∉ u) (p : Nat) :
    (u ++ List.replicate p 61).rdropWhile (· == 61) = u := by
  induction p with
  | zero =>
      rw [List.replicate_zero, List.append_nil, List.rdropWhile_eq_self_iff]
      intro hne hlast
      exact hu (eq_of_beq hlast ▸ List.getLast_mem hne)
  | succ p ih =>
      rw [List.replicate_succ', ← List.append_assoc, List.rdropWhile_concat_pos _ _ _ rfl, ih]

/-- A string that is padded to an encoding, and announces the bytes that are encoded. -/
theorem decodesTo_of_padded (hne : s ≠ []) (hmod : s.length % 4 ≠ 1)
    (hlt : data.length < 2 ^ 31) (hpadded : padded s = encodeChunks data)
    (hann : announced s = data.length) : DecodesTo s data := by
  have hlength : (padded s).length < 2 ^ 32 := by
    have hbounds := announced_bounds hmod
    have hwhole := length_padded s
    omega
  refine ⟨(padded s).length.succ, ?_⟩
  rw [base64ToBytes_eq hne hmod (by omega) hlength (by omega), hpadded,
    decodeChunks_encodeChunks, hann]

theorem decodesTo_encodeChunks (hne : data ≠ []) (hlt : data.length < 2 ^ 31) :
    DecodesTo (encodeChunks data) data ∧
      DecodesTo ((encodeChunks data).rdropWhile (· == 61)) data := by
  obtain ⟨u, hu, hchars, hlen⟩ := encodeChunks_eq_append data
  have hpos : 1 ≤ data.length := List.length_pos_iff.mpr hne
  have hu' : u ≠ [] := by
    rintro rfl
    simp at hlen
    omega
  rw [hu, rdropWhile_append_replicate (equals_notMem hchars), ← hu]
  have hlength : (encodeChunks data).length = (data.length + 2) / 3 * 4 := by
    rw [hu, List.length_append, List.length_replicate, hlen]
    omega
  constructor
  · refine decodesTo_of_padded ?_ (by omega) hlt ?_ ?_
    · rw [← List.length_pos_iff, hlength]
      omega
    · rw [padded, show (4 - (encodeChunks data).length % 4) % 4 = 0 by omega, List.replicate_zero,
        List.append_nil]
    · rw [announced, if_pos (by omega), hlength, hu, padding_eq (by omega) (equals_notMem hchars)
        hu']
      omega
  · refine decodesTo_of_padded hu' (by omega) hlt ?_ ?_
    · have hmissing : (4 - u.length % 4) % 4 = (3 - data.length % 3) % 3 := by
        obtain h | h | h : data.length % 3 = 0 ∨ data.length % 3 = 1 ∨ data.length % 3 = 2 := by
          omega
        · rw [h, show u.length % 4 = 0 by omega]
        · rw [h, show u.length % 4 = 2 by omega]
        · rw [h, show u.length % 4 = 3 by omega]
      rw [padded, hu, hmissing]
    · have hpadding := padding_eq (p := 0) (Nat.zero_le 2) (equals_notMem hchars) hu'
      rw [List.replicate_zero, List.append_nil] at hpadding
      rw [announced]
      split <;> omega

/-- The length for which `idx + 3` is not an `int` where it gets past the end. -/
theorem encodeLoop_ne_returned {j : Nat} {ret s : Bytes} (hlen : data.length = 2 ^ 31 - 1)
    (hj : 3 * j < data.length) :
    encodeLoop data data.length n (3 * j : Nat) ret ≠ .returned s := by
  induction n generalizing j ret with
  | zero => exact fun h => by cases h
  | succ n ih =>
      have hne : data.drop (3 * j) ≠ [] := by
        rw [ne_eq, List.drop_eq_nil_iff]
        omega
      obtain ⟨chunk, hchunk, -⟩ := encodeBase64Chunk_of_ne_nil hne
      have hrest : int32 (data.length - (3 * j : Nat)) = (data.drop (3 * j)).length := by
        rw [int32_of_fits (by constructor <;> omega), List.length_drop]
        omega
      rw [encodeLoop, if_pos (by omega), hrest, Int.toNat_natCast, hchunk]
      simp only
      by_cases hlast : 3 * j + 3 < data.length
      · have hnext : int32 ((3 * j : Nat) + 3) = (3 * (j + 1) : Nat) := by
          rw [int32_of_fits (by constructor <;> omega)]
          omega
        rw [hnext]
        exact ih (by omega)
      · -- `idx` is negative now, and `len - idx` is, too
        have hj' : (3 * j : Nat) = 2 ^ 31 - 2 := by omega
        have hnext : int32 ((3 * j : Nat) + 3) = -2 ^ 31 + 1 := by
          rw [hj']
          rfl
        have hsize : int32 (data.length - (-2 ^ 31 + 1)) = -2 := by
          rw [hlen]
          rfl
        cases n with
        | zero => exact fun h => by cases h
        | succ n =>
            rw [hnext, encodeLoop, if_pos (by omega), hsize, encodeBase64Chunk, if_pos (by decide)]
            exact fun h => by cases h

/-- An estimate of the length of the encoding is negative as an `int`. -/
theorem estimate_neg_iff (n : Nat) :
    (int32 (int32 (n + 3) * 4)).tdiv 3 < 0 ↔ 2 ^ 29 ≤ (n + 3) % 2 ^ 30 := by
  have hmod : int32 (n + 3) * 4 % 2 ^ 32 = 4 * ((n + 3) % 2 ^ 30) := by
    rw [int32, Buffer.signed, Buffer.unsigned]
    split <;> omega
  have hsize : int32 (int32 (n + 3) * 4) =
      if (n + 3) % 2 ^ 30 < 2 ^ 29 then 4 * (((n + 3) % 2 ^ 30 : Nat) : Int)
      else 4 * (((n + 3) % 2 ^ 30 : Nat) : Int) - 2 ^ 32 := by
    generalize int32 (n + 3) * 4 = z at hmod
    rw [int32, Buffer.signed, Buffer.unsigned]
    split <;> split <;> omega
  rw [hsize]
  split
  · rename_i hlt
    refine iff_of_false (Int.not_lt.mpr (Int.tdiv_nonneg (by omega) (by decide))) (by omega)
  · rename_i hge
    refine iff_of_true ?_ (by omega)
    rw [Int.tdiv_eq_ediv, show Int.sign 3 = 1 from rfl]
    split <;> omega

theorem mod_lt_of_encodes {s : Bytes} (h : Encodes data s) :
    (data.length + 3) % 2 ^ 30 < 2 ^ 29 := by
  obtain ⟨n, h⟩ := h
  rw [bytesToBase64] at h
  split at h
  · cases h
  · rename_i hpos
    exact Nat.lt_of_not_le fun hle => hpos ((estimate_neg_iff data.length).mpr hle)

/-- The lengths for which the encoding returns. -/
theorem base64_roundTrips_iff (hne : data ≠ []) (hlt : data.length < 2 ^ 31) :
    RoundTrips data ↔ (data.length + 3) % 2 ^ 30 < 2 ^ 29 ∧ data.length < 2 ^ 31 - 1 := by
  constructor
  · rintro ⟨s, hs, -, -⟩
    refine ⟨mod_lt_of_encodes hs, Nat.lt_of_not_le fun hle => ?_⟩
    obtain ⟨n, hs⟩ := hs
    rw [bytesToBase64] at hs
    split at hs
    · cases hs
    · exact encodeLoop_ne_returned (j := 0) (by omega) (by omega) hs
  · rintro ⟨hsize, hlen⟩
    refine ⟨encodeChunks data, ⟨data.length.succ, ?_⟩, decodesTo_encodeChunks hne hlt⟩
    have hloop : encodeLoop data data.length data.length.succ 0 [] = _ :=
      encodeLoop_eq (j := 0) hlen (by omega) (by omega)
    rw [bytesToBase64, if_neg fun hneg => by
      have hle := (estimate_neg_iff data.length).mp hneg
      omega]
    exact hloop

/-- Two groups, the second one padded. -/
theorem roundTrips_padded : RoundTrips [255, 0, 16, 131] :=
  (base64_roundTrips_iff (List.cons_ne_nil 255 _) (by decide)).mpr ⟨by decide, by decide⟩

/-- The estimate for `2 ^ 29 - 3` bytes does not fit in an `int`. -/
theorem not_roundTrips : ¬ ∀ data : Bytes, data ≠ [] → data.length < 2 ^ 31 → RoundTrips data := by
  intro h
  have hlength : (List.replicate (2 ^ 29 - 3) (0 : UInt8)).length = 2 ^ 29 - 3 :=
    List.length_replicate
  obtain ⟨s, hs, -⟩ := h (List.replicate (2 ^ 29 - 3) 0)
    (List.ne_nil_of_length_pos (by rw [hlength]; decide)) (by rw [hlength]; decide)
  have hlt := mod_lt_of_encodes hs
  rw [hlength] at hlt
  exact absurd hlt (by decide)

end Base64

end Gunrock
