import Mathlib.Algebra.Ring.Int.Defs
import Mathlib.Algebra.Ring.Nat
import Mathlib.Data.List.TakeWhile
import Mathlib.Logic.Function.Basic
import Mathlib.Tactic.Common

/-!
# Fixed-size byte buffers

A `Buffer n` is `n` bytes of memory.  Everything a program does to such a piece of
memory is described here by what it does to the byte at each position: copying a
smaller buffer in (`blit`) or out (`slice`), and reading the same bytes as
little-endian 32-bit words or as a bit map.

A typed view of memory is a pair of functions to and from some `Buffer m`; the laws
`slice_blit` and `slice_blit_of_disjoint` are then all that is needed to see that storing
one record in an array of records changes that record only.
-/

/-- `n` bytes of memory. -/
@[ext]
structure Buffer (n : Nat) where
  /-- The byte at each position. -/
  byte : Fin n → UInt8

namespace Buffer

variable {n m : Nat}

/-- The byte at position `i`, and `0` past the end. -/
def get (b : Buffer n) (i : Nat) : UInt8 := if h : i < n then b.byte ⟨i, h⟩ else 0

/-- The buffer whose byte at position `i` is `f i`. -/
def ofFn (f : Nat → UInt8) : Buffer n := ⟨fun i => f i⟩

/-- The buffer of zero bytes, as `memset` and `calloc` leave it. -/
def zero : Buffer n := ofFn fun _ => 0

theorem get_ofFn (f : Nat → UInt8) (i : Nat) :
    (ofFn f : Buffer n).get i = if i < n then f i else 0 := by
  by_cases h : i < n <;> simp [get, ofFn, h]

@[simp] theorem get_ofFn_of_lt {f : Nat → UInt8} {i : Nat} (h : i < n) :
    (ofFn f : Buffer n).get i = f i := by
  rw [get_ofFn, if_pos h]

@[simp] theorem get_zero (i : Nat) : (zero : Buffer n).get i = 0 := by
  simp [zero, get_ofFn]

/-- Two buffers with the same bytes are equal. -/
theorem ext_get {a b : Buffer n} (h : ∀ i < n, a.get i = b.get i) : a = b := by
  apply Buffer.ext
  funext i
  simpa [get] using h i i.isLt

/-! ## Single bytes -/

/-- Store `v` at position `j`. -/
def set (b : Buffer n) (j : Nat) (v : UInt8) : Buffer n :=
  ofFn fun i => if i = j then v else b.get i

theorem get_set (b : Buffer n) (j : Nat) (v : UInt8) {i : Nat} (h : i < n) :
    (b.set j v).get i = if i = j then v else b.get i := by
  rw [set, get_ofFn_of_lt h]

/-! ## Copying -/

/-- The `m` bytes from position `off` on. -/
def slice (b : Buffer n) (off m : Nat) : Buffer m := ofFn fun i => b.get (off + i)

/-- Copy `s` over the bytes from position `off` on. -/
def blit (b : Buffer n) (off : Nat) (s : Buffer m) : Buffer n :=
  ofFn fun i => if off ≤ i ∧ i < off + m then s.get (i - off) else b.get i

theorem get_slice (b : Buffer n) (off : Nat) {i : Nat} (h : i < m) :
    (b.slice off m).get i = b.get (off + i) := by
  rw [slice, get_ofFn_of_lt h]

theorem get_blit (b : Buffer n) (off : Nat) (s : Buffer m) {i : Nat} (h : i < n) :
    (b.blit off s).get i = if off ≤ i ∧ i < off + m then s.get (i - off) else b.get i := by
  rw [blit, get_ofFn_of_lt h]

/-- What was copied in is read back. -/
theorem slice_blit {b : Buffer n} {off : Nat} {s : Buffer m} (h : off + m ≤ n) :
    (b.blit off s).slice off m = s := by
  apply ext_get
  intro i hi
  rw [get_slice _ _ hi, get_blit _ _ _ (by omega), if_pos (by omega), Nat.add_sub_cancel_left]

/-- Copying leaves the bytes elsewhere alone. -/
theorem slice_blit_of_disjoint {b : Buffer n} {off off' m' : Nat} {s : Buffer m}
    (h : off' + m' ≤ n) (hd : off' + m' ≤ off ∨ off + m ≤ off') :
    (b.blit off s).slice off' m' = b.slice off' m' := by
  apply ext_get
  intro i hi
  rw [get_slice _ _ hi, get_slice _ _ hi, get_blit _ _ _ (by omega), if_neg (by omega)]

/-! ## Little-endian words -/

/-- Byte `k` of the 32-bit word `w`, least significant first. -/
def wordByte (w k : Nat) : UInt8 := UInt8.ofNat (w / 256 ^ k)

/-- The 32-bit word at position `off`. -/
def word (b : Buffer n) (off : Nat) : Nat :=
  (b.get off).toNat + 256 * (b.get (off + 1)).toNat + 65536 * (b.get (off + 2)).toNat
    + 16777216 * (b.get (off + 3)).toNat

/-- The buffer of `n / 4` words with word `k` equal to `w k`. -/
def ofWords (w : Nat → Nat) : Buffer n := ofFn fun i => wordByte (w (i / 4)) (i % 4)

theorem word_lt (b : Buffer n) (off : Nat) : b.word off < 2 ^ 32 := by
  have h0 := (b.get off).toNat_lt
  have h1 := (b.get (off + 1)).toNat_lt
  have h2 := (b.get (off + 2)).toNat_lt
  have h3 := (b.get (off + 3)).toNat_lt
  unfold word
  omega

theorem toNat_wordByte (w k : Nat) : (wordByte w k).toNat = w / 256 ^ k % 256 := by
  simp [wordByte]

/-- A word is determined by its four bytes. -/
theorem wordByte_word (b : Buffer n) (off : Nat) {k : Nat} (h : k < 4) :
    wordByte (b.word off) k = b.get (off + k) := by
  have h0 := (b.get off).toNat_lt
  have h1 := (b.get (off + 1)).toNat_lt
  have h2 := (b.get (off + 2)).toNat_lt
  have h3 := (b.get (off + 3)).toNat_lt
  apply UInt8.toNat.inj
  rw [toNat_wordByte, word]
  obtain rfl | rfl | rfl | rfl : k = 0 ∨ k = 1 ∨ k = 2 ∨ k = 3 := by omega
  all_goals simp only [Nat.pow_zero, Nat.reducePow, Nat.add_zero]; omega

/-- A stored word is read back, reduced to 32 bits. -/
theorem word_ofWords {w : Nat → Nat} {k : Nat} (h : 4 * k + 4 ≤ n) :
    (ofWords w : Buffer n).word (4 * k) = w k % 2 ^ 32 := by
  have hget : ∀ j < 4, ((ofWords w : Buffer n).get (4 * k + j)).toNat = w k / 256 ^ j % 256 := by
    intro j hj
    rw [ofWords, get_ofFn_of_lt (by omega), toNat_wordByte,
      show (4 * k + j) / 4 = k by omega, show (4 * k + j) % 4 = j by omega]
  have h0 := hget 0 (by omega)
  have h1 := hget 1 (by omega)
  have h2 := hget 2 (by omega)
  have h3 := hget 3 (by omega)
  simp only [Nat.pow_zero, Nat.reducePow, Nat.add_zero] at h0 h1 h2 h3
  rw [word, h0, h1, h2, h3]
  omega

/-- A buffer whose words are written back is unchanged. -/
theorem ofWords_word {b : Buffer n} :
    (ofWords fun k => b.word (4 * k)) = b := by
  apply ext_get
  intro i hi
  rw [ofWords, get_ofFn_of_lt hi, wordByte_word _ _ (by omega)]
  congr 1
  omega

theorem ofWords_congr {w w' : Nat → Nat} (h : ∀ k, 4 * k < n → w k = w' k) :
    (ofWords w : Buffer n) = ofWords w' := by
  apply ext_get
  intro i hi
  rw [ofWords, ofWords, get_ofFn_of_lt hi, get_ofFn_of_lt hi, h _ (by omega)]

/-! ## Two's complement

A word read as a C `int`, and the word a C `int` is stored as. -/

/-- The `int` with bit pattern `w`. -/
def signed (w : Nat) : Int := if w < 2 ^ 31 then w else (w : Int) - 2 ^ 32

/-- The bit pattern of `z`, which is `z` reduced to 32 bits. -/
def unsigned (z : Int) : Nat := (z % 2 ^ 32).toNat

/-- `z` fits in an `int`. -/
def FitsInt (z : Int) : Prop := -2 ^ 31 ≤ z ∧ z < 2 ^ 31

theorem unsigned_lt (z : Int) : unsigned z < 2 ^ 32 := by
  unfold unsigned
  omega

theorem unsigned_signed {w : Nat} (h : w < 2 ^ 32) : unsigned (signed w) = w := by
  unfold unsigned signed
  split <;> omega

theorem signed_unsigned {z : Int} (h : FitsInt z) : signed (unsigned z) = z := by
  unfold FitsInt at h
  unfold unsigned signed
  split <;> omega

theorem fitsInt_signed {w : Nat} (h : w < 2 ^ 32) : FitsInt (signed w) := by
  unfold signed FitsInt
  split <;> omega

/-- Small words are themselves. -/
theorem signed_of_lt {w : Nat} (h : w < 2 ^ 31) : signed w = w := if_pos h

theorem unsigned_ofNat {w : Nat} (h : w < 2 ^ 32) : unsigned w = w := by
  unfold unsigned
  omega

/-! ## C strings -/

/-- All the bytes, in order. -/
def toList (b : Buffer n) : List UInt8 := (List.range n).map b.get

/-- The bytes before the first zero byte. -/
def cStr (l : List UInt8) : List UInt8 := l.takeWhile (· ≠ 0)

/-- `strcpy`: the bytes of `s` and a zero byte are stored, the rest stays. -/
def strcpy (b : Buffer n) (s : List UInt8) : Buffer n :=
  ofFn fun i => if i ≤ s.length then s.getD i 0 else b.get i

theorem zero_notMem_cStr (l : List UInt8) : (0 : UInt8) ∉ cStr l := by
  intro h
  simpa using List.mem_takeWhile_imp h

theorem cStr_of_notMem {l : List UInt8} (h : (0 : UInt8) ∉ l) : cStr l = l := by
  rw [cStr, List.takeWhile_eq_self_iff]
  intro x hx
  have hx0 : x ≠ 0 := by
    rintro rfl
    exact h hx
  simpa using hx0

theorem length_cStr_le (l : List UInt8) : (cStr l).length ≤ l.length :=
  (List.takeWhile_prefix _).length_le

/-- A string that fits, terminator included, is read back from where it was copied. -/
theorem cStr_toList_strcpy {b : Buffer n} {s : List UInt8} (hs : (0 : UInt8) ∉ s)
    (hn : s.length < n) : cStr (b.strcpy s).toList = s := by
  have hsplit : (b.strcpy s).toList =
      s ++ 0 :: (List.range' (s.length + 1) (n - (s.length + 1))).map b.get := by
    apply List.ext_getElem
    · simp [toList]
      omega
    · intro i h₁ h₂
      simp only [toList, List.length_map, List.length_range] at h₁
      simp only [toList, List.getElem_map, List.getElem_range, strcpy, get_ofFn_of_lt h₁]
      rcases Nat.lt_trichotomy i s.length with hi | hi | hi
      · rw [if_pos (Nat.le_of_lt hi), List.getElem_append_left hi]
        simp [hi]
      · subst hi
        simp
      · rw [if_neg (by omega), List.getElem_append_right (Nat.le_of_lt hi)]
        obtain ⟨j, rfl⟩ : ∃ j, i = s.length + 1 + j := ⟨i - (s.length + 1), by omega⟩
        simp [show s.length + 1 + j - s.length = j + 1 by omega]
  have hself : s.takeWhile (· ≠ 0) = s := cStr_of_notMem hs
  rw [hsplit, cStr, List.takeWhile_append, hself]
  simp

/-! ## Bits -/

/-- Bit `i` of the buffer: bit `i % 8`, least significant first, of byte `i / 8`. -/
def bit (b : Buffer n) (i : Nat) : Bool := (b.get (i / 8)).toNat.testBit (i % 8)

/-- `buf[i / 8] |= 1 << (i % 8)`. -/
def setBit (b : Buffer n) (i : Nat) : Buffer n :=
  b.set (i / 8) (b.get (i / 8) ||| (1 <<< UInt8.ofNat (i % 8)))

/-- `buf[i / 8] &= ~(1 << (i % 8))`. -/
def clearBit (b : Buffer n) (i : Nat) : Buffer n :=
  b.set (i / 8) (b.get (i / 8) &&& ~~~(1 <<< UInt8.ofNat (i % 8)))

theorem testBit_one_shiftLeft (k j : Fin 8) :
    ((1 : UInt8) <<< UInt8.ofNat k).toNat.testBit j = decide (j = k) := by
  revert k j
  decide

theorem testBit_not_one_shiftLeft (k j : Fin 8) :
    (~~~((1 : UInt8) <<< UInt8.ofNat k)).toNat.testBit j = decide (j ≠ k) := by
  revert k j
  decide

theorem bit_setBit {b : Buffer n} {i j : Nat} (hj : j < 8 * n) :
    (b.setBit i).bit j = (decide (j = i) || b.bit j) := by
  rw [bit, setBit, get_set _ _ _ (by omega)]
  split
  · rename_i h
    have hbit := testBit_one_shiftLeft ⟨i % 8, by omega⟩ ⟨j % 8, by omega⟩
    simp only [Fin.mk.injEq] at hbit
    rw [UInt8.toNat_or, Nat.testBit_or, hbit, bit, h, Bool.or_comm]
    congr 2
    exact propext ⟨fun h' => by omega, fun h' => by rw [h']⟩
  · rename_i h
    have hne : j ≠ i := by
      rintro rfl
      exact h rfl
    simp [bit, hne]

theorem bit_clearBit {b : Buffer n} {i j : Nat} (hj : j < 8 * n) :
    (b.clearBit i).bit j = (decide (j ≠ i) && b.bit j) := by
  rw [bit, clearBit, get_set _ _ _ (by omega)]
  split
  · rename_i h
    have hbit := testBit_not_one_shiftLeft ⟨i % 8, by omega⟩ ⟨j % 8, by omega⟩
    simp only [ne_eq, Fin.mk.injEq] at hbit
    rw [UInt8.toNat_and, Nat.testBit_and, hbit, bit, h, Bool.and_comm]
    congr 2
    exact propext ⟨fun h' h'' => h' (by rw [h'']), fun h' h'' => h' (by omega)⟩
  · rename_i h
    have hne : j ≠ i := by
      rintro rfl
      exact h rfl
    simp [bit, hne]

@[simp] theorem bit_zero (i : Nat) : (zero : Buffer n).bit i = false := by
  simp [bit]

end Buffer
