import Gunrock.Base64
import Mathlib.Data.Bool.AllAny

/-!
# The bytes that decoding writes

`base64ToBytes` computes the number of bytes before it decodes them.  A string can be decoded when
it consists of characters of the alphabet and of the padding that is missing
(`isPadded_of_decodeChunks`), and the two numbers differ when one `=` of two is there already
(`length_eq_announced_iff`).  Past `2 ^ 32` characters the loop does not end.
-/

namespace Gunrock

open StringUtils

namespace Base64

variable {isLastChunk : Bool} {c c₀ c₁ c₂ c₃ : UInt8} {s t bytes : Bytes} {n p : Nat}

/-! ## Strings that can be decoded -/

/-- Characters of the alphabet, and `p` times the character `=`. -/
structure IsPadded (p : Nat) (s : Bytes) : Prop where
  le : p ≤ 2
  eq_append : ∃ u : Bytes, s = u ++ List.replicate p 61 ∧ ∀ c ∈ u, isBase64 c = true

/-- A chunk of characters of the alphabet. -/
theorem exists_decodeBase64Chunk (h₀ : isBase64 c₀ = true) (h₁ : isBase64 c₁ = true)
    (h₂ : isBase64 c₂ = true) (h₃ : isBase64 c₃ = true) (isLastChunk : Bool) :
    ∃ bytes, decodeBase64Chunk [c₀, c₁, c₂, c₃] isLastChunk = .ok bytes ∧ bytes.length = 3 :=
  decodeBase64Chunk_iff.mpr ⟨h₀, h₁, .inr h₂, .inr h₃,
    .three (isBase64_iff.mp h₂).1 (isBase64_iff.mp h₃).1⟩

/-- What can be decoded is padded, and its padding is what it lacks of three bytes a chunk. -/
theorem isPadded_of_decodeChunks (ht : t.length % 4 = 0) (h : decodeChunks t = .ok bytes) :
    ∃ p, IsPadded p t ∧ bytes.length + p = t.length / 4 * 3 := by
  induction t using decodeChunks.induct generalizing bytes with
  | case1 c₀ c₁ c₂ c₃ rest ih =>
      simp only [List.length_cons] at ht ⊢
      rw [decodeChunks] at h
      obtain ⟨chunk, hchunk, h⟩ := Exception.bind_eq_ok.mp h
      obtain ⟨others, hothers, h⟩ := Exception.bind_eq_ok.mp h
      cases h
      obtain ⟨h₀, h₁, h₂, h₃, hn⟩ := decodeBase64Chunk_iff.mp ⟨chunk, hchunk, rfl⟩
      generalize hlen : chunk.length = n at hn
      have hrest : n ≠ 3 → rest = [] := fun hne => by
        refine of_decide_eq_true (Bool.of_not_eq_false fun hfalse => hne ?_)
        rw [hfalse] at hchunk
        exact hlen ▸ length_of_not_isLastChunk hchunk
      cases hn with
      | three hne₂ hne₃ =>
          obtain ⟨p, ⟨hp, u, rfl, hu⟩, hcount⟩ := ih (by omega) hothers
          refine ⟨p, ⟨hp, c₀ :: c₁ :: c₂ :: c₃ :: u, rfl, ?_⟩, ?_⟩
          · simp only [List.forall_mem_cons]
            exact ⟨h₀, h₁, h₂.resolve_left hne₂, h₃.resolve_left hne₃, hu⟩
          · rw [List.length_append, hlen]
            omega
      | two _ hne₂ heq₃ =>
          obtain rfl := hrest (by decide)
          cases hothers
          refine ⟨1, ⟨by decide, [c₀, c₁, c₂], by rw [heq₃]; rfl, ?_⟩, ?_⟩
          · simp only [List.forall_mem_cons]
            exact ⟨h₀, h₁, h₂.resolve_left hne₂, by simp⟩
          · rw [List.append_nil, hlen]
            rfl
      | one _ heq₂ heq₃ =>
          obtain rfl := hrest (by decide)
          cases hothers
          refine ⟨2, ⟨by decide, [c₀, c₁], by rw [heq₂, heq₃]; rfl, ?_⟩, ?_⟩
          · simp only [List.forall_mem_cons]
            exact ⟨h₀, h₁, by simp⟩
          · rw [List.append_nil, hlen]
            rfl
  | case2 t hshort =>
      obtain rfl := eq_nil_of_short ht hshort
      cases h
      exact ⟨0, ⟨by decide, [], rfl, by simp⟩, rfl⟩

/-- What is padded to whole chunks can be decoded. -/
theorem decodeChunks_of_isPadded (ht : t.length % 4 = 0) (h : IsPadded p t) :
    ∃ bytes, decodeChunks t = .ok bytes := by
  obtain ⟨hp, u, rfl, hu⟩ := h
  induction u using decodeChunks.induct with
  | case1 c₀ c₁ c₂ c₃ rest ih =>
      simp only [List.forall_mem_cons] at hu
      obtain ⟨h₀, h₁, h₂, h₃, hu⟩ := hu
      simp only [List.cons_append, List.length_cons] at ht ⊢
      obtain ⟨others, hothers⟩ := ih hu (by omega)
      obtain ⟨chunk, hchunk, -⟩ := exists_decodeBase64Chunk h₀ h₁ h₂ h₃
        (decide (rest ++ List.replicate p 61 = []))
      exact ⟨chunk ++ others, by
        rw [decodeChunks, hchunk, hothers]
        rfl⟩
  | case2 u hshort =>
      rw [List.length_append, List.length_replicate] at ht
      rcases u with _ | ⟨c₀, _ | ⟨c₁, _ | ⟨c₂, _ | ⟨c₃, rest⟩⟩⟩⟩
      · obtain rfl : p = 0 := by simp at ht; omega
        exact ⟨[], rfl⟩
      · simp at ht
        omega
      · obtain rfl : p = 2 := by simp at ht; omega
        simp only [List.forall_mem_cons] at hu
        obtain ⟨h₀, h₁, -⟩ := hu
        obtain ⟨chunk, hchunk, -⟩ := decodeBase64Chunk_iff.mpr
          ⟨h₀, h₁, .inl rfl, .inl rfl, .one rfl rfl rfl⟩
        exact ⟨chunk, decodeChunks_of_last hchunk⟩
      · obtain rfl : p = 1 := by simp at ht; omega
        simp only [List.forall_mem_cons] at hu
        obtain ⟨h₀, h₁, h₂, -⟩ := hu
        obtain ⟨chunk, hchunk, -⟩ := decodeBase64Chunk_iff.mpr
          ⟨h₀, h₁, .inr h₂, .inl rfl, .two rfl (isBase64_iff.mp h₂).1 rfl⟩
        exact ⟨chunk, decodeChunks_of_last hchunk⟩
      · exact (hshort c₀ c₁ c₂ c₃ rest rfl).elim

/-- Less padding than there is behind characters of the alphabet. -/
theorem append_replicate_eq {u : Bytes} {k : Nat} (hu : ∀ c ∈ u, isBase64 c = true)
    (h : s ++ List.replicate k 61 = u ++ List.replicate p 61) :
    k ≤ p ∧ s = u ++ List.replicate (p - k) 61 := by
  rcases Nat.lt_or_ge p k with hlt | hle
  · obtain ⟨m, rfl⟩ : ∃ m, k = m + 1 + p := ⟨k - p - 1, by omega⟩
    rw [← List.replicate_append_replicate, ← List.append_assoc, List.append_cancel_right_eq] at h
    refine absurd (h ▸ ?_) (equals_notMem hu)
    exact List.mem_append_right s List.mem_cons_self
  · obtain ⟨m, rfl⟩ : ∃ m, p = m + k := ⟨p - k, by omega⟩
    rw [← List.replicate_append_replicate, ← List.append_assoc, List.append_cancel_right_eq] at h
    exact ⟨hle, by rw [h, Nat.add_sub_cancel]⟩

/-! ## The bytes that are written -/

/-- If a call does not throw, it sets `*len`, and what it stores to are the positions below. -/
def WritesAll (s : Bytes) : Prop :=
  (∀ n e, base64ToBytes s n ≠ .throws e) →
    ∃ n len stores, base64ToBytes s n = .returned ⟨some len, stores⟩ ∧
      ∀ q : Nat, q ∈ stores.map Prod.fst ↔ (q : Int) < len

/-- Characters of the alphabet, and one `=` of the two that belong there. -/
structure OddPadding (s : Bytes) : Prop where
  mod : s.length % 4 = 3
  lt : announced s < 2 ^ 31
  eq_append : ∃ u : Bytes, s = u ++ [61] ∧ ∀ c ∈ u, isBase64 c = true

/-- Characters of the alphabet, as many as an `unsigned int` can count, and others behind them,
where the number of bytes is not a negative `int`. -/
structure Endless (s : Bytes) : Prop where
  lt : 2 ^ 32 < s.length
  mod : s.length % 4 ≠ 1
  announced : announced s % 2 ^ 32 < 2 ^ 31
  isBase64 : ∀ i, i < 2 ^ 32 → ∀ c, s[i]? = some c → isBase64 c = true

/-- How many bytes are decoded, and how many are announced. -/
theorem length_eq_announced_iff (hne : s ≠ []) (hlt : announced s < 2 ^ 31)
    (h : decodeChunks (padded s) = .ok bytes) : bytes.length = announced s ↔ ¬ OddPadding s := by
  obtain ⟨p, ⟨hp, u, hu, hchars⟩, hcount⟩ := isPadded_of_decodeChunks (length_padded s) h
  obtain ⟨hle, hs⟩ := append_replicate_eq hchars hu
  have hlen := congrArg List.length hs
  rw [padded, List.length_append, List.length_replicate] at hcount
  rw [List.length_append, List.length_replicate] at hlen
  have hodd : OddPadding s ↔ s.length % 4 = 3 ∧ p = 2 := by
    constructor
    · rintro ⟨h3, -, u', hs', -⟩
      refine ⟨h3, ?_⟩
      have hk := (append_replicate_eq (k := 1) hchars (hs'.symm.trans hs)).1
      omega
    · rintro ⟨h3, rfl⟩
      refine ⟨h3, hlt, u, ?_, hchars⟩
      rw [hs, h3]
      rfl
  rw [hodd]
  have hpos : 1 ≤ s.length := List.length_pos_iff.mpr hne
  rw [announced]
  split
  · rename_i h0
    have hpadding : padding s = p := by
      rw [h0] at hs
      rw [hs]
      refine padding_eq (by omega) (equals_notMem hchars) ?_
      rintro rfl
      simp at hlen
      omega
    omega
  · omega

/-- More passes do not change what a loop has come to. -/
theorem decodeLoop_mono {m idx byteIdx : Nat} {stores : List (Nat × UInt8)}
    (h : decodeLoop s n idx byteIdx stores ≠ .running) (hm : n ≤ m) :
    decodeLoop s m idx byteIdx stores = decodeLoop s n idx byteIdx stores := by
  induction n generalizing m idx byteIdx stores with
  | zero => exact absurd rfl h
  | succ n ih =>
      obtain ⟨m, rfl⟩ : ∃ k, m = k + 1 := ⟨m - 1, by omega⟩
      rw [decodeLoop, decodeLoop]
      rw [decodeLoop] at h
      split
      · rename_i hlt
        rw [if_pos hlt] at h
        cases hchunk : decodeBase64Chunk (s.drop idx) (idx = s.length - 4) with
        | error e => rfl
        | ok bytes =>
            rw [hchunk] at h
            exact ih h (by omega)
      · rfl

theorem base64ToBytes_mono {m : Nat} (h : base64ToBytes s n ≠ .running) (hm : n ≤ m) :
    base64ToBytes s m = base64ToBytes s n := by
  rw [base64ToBytes, base64ToBytes]
  rw [base64ToBytes] at h
  split
  · rfl
  · rename_i hne
    rw [if_neg hne] at h
    cases hpadding : checkPadding s with
    | error e => rfl
    | ok r =>
        simp only [hpadding] at h ⊢
        split
        · rfl
        · rename_i hpos
          rw [if_neg hpos] at h
          rw [decodeLoop_mono (fun hrunning => h (by rw [hrunning])) hm]

/-- A loop that never throws has decoded the chunk that it is at. -/
theorem decodeLoop_step {idx byteIdx : Nat} {stores : List (Nat × UInt8)}
    (h : ∀ n e, decodeLoop s n idx byteIdx stores ≠ .throws e) (hidx : idx < s.length) :
    ∃ bytes, decodeBase64Chunk (s.drop idx) (idx = s.length - 4) = .ok bytes ∧
      ∀ n e, decodeLoop s n ((idx + 4) % 2 ^ 32) ((byteIdx + 3) % 2 ^ 32)
        (stores ++ place byteIdx bytes) ≠ .throws e := by
  cases hchunk : decodeBase64Chunk (s.drop idx) (idx = s.length - 4) with
  | error e =>
      refine absurd ?_ (h 1 e)
      rw [decodeLoop, if_pos hidx, hchunk]
  | ok bytes =>
      refine ⟨bytes, rfl, fun n e hthrows => h (n + 1) e ?_⟩
      rw [decodeLoop, if_pos hidx, hchunk]
      exact hthrows

theorem drop_eq_four {idx : Nat} (h : idx + 4 ≤ s.length) :
    s.drop idx = s[idx] :: s[idx + 1] :: s[idx + 2] :: s[idx + 3] :: s.drop (idx + 4) := by
  rw [List.drop_eq_getElem_cons (by omega), List.drop_eq_getElem_cons (by omega),
    List.drop_eq_getElem_cons (by omega), List.drop_eq_getElem_cons (by omega)]

/-- Where `idx` comes back to `0` before the end, the loop goes on for ever. -/
theorem decodeLoop_eq_running {idx byteIdx : Nat} {stores : List (Nat × UInt8)}
    (hmod : s.length % 4 = 0) (hlt : 2 ^ 32 < s.length)
    (hchars : ∀ i, i < 2 ^ 32 → ∀ c, s[i]? = some c → isBase64 c = true) (hidx : idx % 4 = 0)
    (hidx' : idx < 2 ^ 32) : decodeLoop s n idx byteIdx stores = .running := by
  induction n generalizing idx byteIdx stores with
  | zero => rfl
  | succ n ih =>
      have hchar : ∀ i (h : i < s.length), i < 2 ^ 32 → isBase64 s[i] = true := fun i h hi =>
        hchars i hi _ (List.getElem?_eq_getElem h)
      obtain ⟨bytes, hbytes, -⟩ := exists_decodeBase64Chunk (hchar idx (by omega) hidx')
        (hchar (idx + 1) (by omega) (by omega)) (hchar (idx + 2) (by omega) (by omega))
        (hchar (idx + 3) (by omega) (by omega)) (decide (idx = s.length - 4))
      have hchunk : decodeBase64Chunk (s.drop idx) (idx = s.length - 4) = .ok bytes := by
        rw [drop_eq_four (by omega)]
        exact hbytes
      rw [decodeLoop, if_pos (by omega), hchunk]
      exact ih (by omega) (Nat.mod_lt _ (by decide))

/-- Where it never throws, it comes past all the characters that it can count. -/
theorem isBase64_of_not_throws (hmod : s.length % 4 = 0) (hlt : 2 ^ 32 < s.length)
    (h : ∀ n e, decodeLoop s n 0 0 [] ≠ .throws e) :
    ∀ i, i < 2 ^ 32 → ∀ c, s[i]? = some c → isBase64 c = true := by
  have hreach : ∀ j, 4 * j < 2 ^ 32 → ∃ byteIdx stores, ∀ n e,
      decodeLoop s n (4 * j) byteIdx stores ≠ .throws e := by
    intro j hj
    induction j with
    | zero => exact ⟨0, [], h⟩
    | succ j ih =>
        obtain ⟨byteIdx, stores, hgo⟩ := ih (by omega)
        obtain ⟨bytes, -, hgo'⟩ := decodeLoop_step hgo (by omega)
        rw [Nat.mod_eq_of_lt (by omega)] at hgo'
        exact ⟨_, _, hgo'⟩
  intro i hi c hc
  obtain ⟨j, k, hk, rfl⟩ : ∃ j k, k < 4 ∧ i = 4 * j + k :=
    ⟨i / 4, i % 4, Nat.mod_lt i (by decide), (Nat.div_add_mod i 4).symm⟩
  obtain ⟨byteIdx, stores, hgo⟩ := hreach j (by omega)
  obtain ⟨bytes, hbytes, -⟩ := decodeLoop_step hgo (by omega)
  rw [drop_eq_four (by omega), decide_eq_false (by omega)] at hbytes
  obtain ⟨h₀, h₁, h₂, h₃⟩ := isBase64_of_not_isLastChunk hbytes
  obtain ⟨_, rfl⟩ := List.getElem?_eq_some_iff.mp hc
  obtain rfl | rfl | rfl | rfl : k = 0 ∨ k = 1 ∨ k = 2 ∨ k = 3 := by omega
  · exact h₀
  · exact h₁
  · exact h₂
  · exact h₃

/-- Strings whose chunks can be counted. -/
theorem writesAll_iff_of_lt (hne : s ≠ []) (hmod : s.length % 4 ≠ 1) (hlt : announced s < 2 ^ 31)
    (hlength : (padded s).length < 2 ^ 32) : WritesAll s ↔ ¬ OddPadding s := by
  have heq : ∀ n, (padded s).length < 4 * n → base64ToBytes s n = _ := fun n hn =>
    base64ToBytes_eq hne hmod hlt hlength hn
  have hpasses : (padded s).length < 4 * (padded s).length.succ := by omega
  cases hdecode : decodeChunks (padded s) with
  | error e =>
      simp only [hdecode] at heq
      refine iff_of_true (fun h => absurd (heq _ hpasses) (h _ e)) fun hodd => ?_
      obtain ⟨u, hu, hchars⟩ := hodd.eq_append
      obtain ⟨bytes, hbytes⟩ := decodeChunks_of_isPadded (p := 2) (length_padded s)
        ⟨Nat.le_refl 2, u, by rw [padded, hodd.mod, hu, List.append_assoc]; rfl, hchars⟩
      cases hdecode.symm.trans hbytes
  | ok bytes =>
      simp only [hdecode] at heq
      rw [← length_eq_announced_iff hne hlt hdecode]
      have hreturned : ∀ n, base64ToBytes s n ≠ .running → base64ToBytes s n = _ := fun n hn =>
        (base64ToBytes_mono hn (Nat.le_add_right n (padded s).length.succ)).symm.trans
          (heq _ (by omega))
      have hthrows : ∀ n e, base64ToBytes s n ≠ .throws e := fun n e h => by
        cases h.symm.trans (hreturned n (by simp [h]))
      constructor
      · intro h
        obtain ⟨n, len, stores, hr, hstores⟩ := h hthrows
        cases hr.symm.trans (hreturned n (by simp [hr]))
        refine Nat.le_antisymm (Nat.le_of_not_lt fun hlt' => ?_) (Nat.le_of_not_lt fun hlt' => ?_)
        · have hmem := (hstores (announced s)).mp (mem_place.mpr ⟨Nat.zero_le _, by omega⟩)
          omega
        · have hmem := mem_place.mp ((hstores bytes.length).mpr (by omega))
          omega
      · intro hlen _
        refine ⟨_, _, _, heq _ hpasses, fun q => ?_⟩
        rw [mem_place, hlen]
        omega

/-- Strings that are too long for that. -/
theorem writesAll_iff_of_gt (hmod : s.length % 4 ≠ 1) (hann : announced s % 2 ^ 32 < 2 ^ 31)
    (hlt : 2 ^ 32 < s.length) : WritesAll s ↔ ¬ Endless s := by
  have hne : s ≠ [] := by
    rintro rfl
    cases hlt
  have hpadded : 2 ^ 32 < (padded s).length := by
    rw [padded, List.length_append]
    omega
  have hget : ∀ i, i < 2 ^ 32 → (padded s)[i]? = s[i]? := fun i hi =>
    List.getElem?_append_left (by omega)
  constructor
  · rintro h ⟨-, -, -, hchars⟩
    have hrunning : ∀ n, base64ToBytes s n = .running := fun n => by
      rw [base64ToBytes_of_lt hne hmod hann, decodeLoop_eq_running (length_padded s) hpadded
        (fun i hi c hc => hchars i hi c (hget i hi ▸ hc)) rfl (by decide)]
    obtain ⟨n, len, stores, hreturned, -⟩ := h fun n e hthrows => by
      cases (hrunning n).symm.trans hthrows
    cases (hrunning n).symm.trans hreturned
  · intro h hthrows
    refine absurd ⟨hlt, hmod, hann, fun i hi c hc => ?_⟩ h
    refine isBase64_of_not_throws (length_padded s) hpadded (fun n e hloop => hthrows n e ?_) i hi c
      ((hget i hi).trans hc)
    rw [base64ToBytes_of_lt hne hmod hann, hloop]

/-- The strings that are decoded to as many bytes as they announce, or not at all. -/
theorem writesAll_iff (s : Bytes) : WritesAll s ↔ s ≠ [] ∧ ¬ OddPadding s ∧ ¬ Endless s := by
  by_cases hne : s = []
  · subst hne
    refine iff_of_false (fun h => ?_) fun h => h.1 rfl
    obtain ⟨n, len, stores, hreturned, -⟩ := h fun n e hthrows => by cases hthrows
    cases hreturned
  by_cases hmod : s.length % 4 = 1
  · have hthrows : base64ToBytes s 0 = .throws (.text "error_invalid_base64_string_length") := by
      rw [base64ToBytes, if_neg hne, checkPadding]
      simp [hmod]
    refine iff_of_true (fun h => absurd hthrows (h 0 _)) ⟨hne, fun h => ?_, fun h => h.mod hmod⟩
    cases hmod.symm.trans h.mod
  rcases Nat.lt_or_ge (announced s % 2 ^ 32) (2 ^ 31) with hann | hann
  · have hbounds := announced_bounds hmod
    rcases Nat.lt_or_ge (2 ^ 32) s.length with hlt | hle
    · rw [writesAll_iff_of_gt hmod hann hlt, and_iff_right hne, and_iff_right]
      rintro ⟨-, hlt', -⟩
      rw [padded, List.length_append] at hbounds
      omega
    · have hlength := length_padded s
      have hpadded : (padded s).length < 2 ^ 32 := by
        rw [padded, List.length_append, List.length_replicate] at hbounds ⊢
        omega
      rw [writesAll_iff_of_lt hne hmod (by omega) hpadded, and_iff_right hne, and_iff_left]
      exact fun h => absurd h.lt (Nat.not_lt.mpr hle)
  · have hthrows := base64ToBytes_of_le hne hmod hann 0
    refine iff_of_true (fun h => absurd hthrows (h 0 _)) ⟨hne, fun h => ?_, fun h => ?_⟩
    · have hlt := h.lt
      omega
    · have hlt := h.announced
      omega

/-- `AA=` announces two bytes, of which one is written. -/
theorem not_writesAll : ¬ ∀ s, WritesAll s := fun h => by
  have hodd : OddPadding [65, 65, 61] := ⟨rfl, by decide, [65, 65], rfl,
    List.all_iff_forall_prop.mp (by decide)⟩
  refine (writesAll_iff_of_lt ?_ ?_ ?_ ?_).mp (h [65, 65, 61]) hodd
  · exact List.cons_ne_nil _ _
  · decide
  · decide
  · decide

end Base64

end Gunrock
