import Gunrock.Parser

/-!
# Names of header fields

The parser compares the name of a header field with the names that it knows while it reads it, letter
by letter.  It recognizes a name just when it is one of them, in capital or small letters, and perhaps
with spaces behind it (`Parser.letters_recognized`).
-/

namespace Gunrock

open Text

namespace Parser

/-- A name that is `word`, up to capital letters, with any number of spaces behind it. -/
def Names (word name : Bytes) : Prop := ∃ n, name.map token = word ++ List.replicate n 32

/-- The letters of `name` are the first ones of `word`, and `index` is where the last of them is. -/
structure Begins (word name : Bytes) (index : Nat) : Prop where
  letters : name.map token = word.take (index + 1)
  lt : index + 1 < word.length

/-- What is known of the letters so far, in a state in which they are compared. -/
def Tracks (name : Bytes) (index : Nat) : HeaderState → Prop
  | .general => True
  | .c => name.map token = bytes "c" ∧ index = 0
  | .co => name.map token = bytes "co" ∧ index = 1
  | .con => name.map token = bytes "con" ∧ index = 2
  | .matchingConnection => Begins (bytes "connection") name index
  | .matchingProxyConnection => Begins (bytes "proxy-connection") name index
  | .matchingContentLength => Begins (bytes "content-length") name index
  | .matchingTransferEncoding => Begins (bytes "transfer-encoding") name index
  | .matchingUpgrade => Begins (bytes "upgrade") name index
  | .connection => Names (bytes "connection") name ∨ Names (bytes "proxy-connection") name
  | .contentLength => Names (bytes "content-length") name
  | .transferEncoding => Names (bytes "transfer-encoding") name
  | .upgrade => Names (bytes "upgrade") name
  | _ => False

section Matching

variable {parser : Parser} {name word : Bytes} {ch c : UInt8} {done : HeaderState}

theorem Names.of_eq (h : name.map token = word) : Names word name := ⟨0, by simpa using h⟩

theorem Names.ne_nil (h : Names word name) (hword : word ≠ []) : name ≠ [] := by
  rintro rfl
  obtain ⟨n, hn⟩ := h
  exact hword (List.append_eq_nil_iff.mp hn.symm).1

/-- A name that does not begin with a word is not one of its spellings. -/
theorem not_names (h : ¬ word <+: name.map token) : ¬ Names word name := by
  rintro ⟨n, hn⟩
  exact h (hn ▸ List.prefix_append word _)

/-- Spaces may follow. -/
theorem Names.space (h : Names word name) : Names word (name ++ [32]) := by
  obtain ⟨n, hn⟩ := h
  refine ⟨n + 1, ?_⟩
  rw [List.map_append, hn, List.append_assoc, List.replicate_succ']
  rfl

/-- One more letter of a word. -/
theorem Begins.matching (h : Begins word name parser.index) (done : HeaderState) (ch : UInt8) :
    ∃ index headerState, parser.matching word done (token ch) =
      { parser with index := index, headerState := headerState } ∧
        (headerState = .general ∨
          headerState = done ∧ (name ++ [ch]).map token = word ∨
          headerState = parser.headerState ∧ Begins word (name ++ [ch]) index) := by
  by_cases hnext : parser.index + 1 > word.length ∨ word[parser.index + 1]? ≠ some (token ch)
  · refine ⟨parser.index + 1, .general, ?_, .inl rfl⟩
    rw [Parser.matching, if_pos hnext]
  · have hch := not_not.mp (not_or.mp hnext).2
    have hletters : (name ++ [ch]).map token = word.take (parser.index + 1 + 1) := by
      rw [List.map_append, h.letters, List.take_add_one (i := parser.index + 1), hch]
      rfl
    by_cases hlen : parser.index + 1 + 1 = word.length
    · refine ⟨parser.index + 1, done, ?_, .inr (.inl ⟨rfl, ?_⟩)⟩
      · rw [Parser.matching, if_neg hnext, if_pos hlen]
      · rw [hletters, hlen, List.take_length]
    · have hlt := h.lt
      refine ⟨parser.index + 1, parser.headerState, ?_, .inr (.inr ⟨rfl, hletters, by omega⟩)⟩
      rw [Parser.matching, if_neg hnext, if_neg hlen]

theorem map_concat {t : Bytes} (h : name.map token = t) (ch : UInt8) :
    (name ++ [ch]).map token = t ++ [token ch] := by
  rw [List.map_append, h]
  rfl

/-- A letter that is compared; nothing else changes. -/
theorem Tracks.letter (h : Tracks name parser.index parser.headerState) (ch : UInt8) :
    ∃ index headerState, parser.fieldLetter ch (token ch) =
      some { parser with index := index, headerState := headerState } ∧
        Tracks (name ++ [ch]) index headerState := by
  -- a word that is compared, up to its end
  have hmatching : ∀ word done, Begins word name parser.index →
      (Names word (name ++ [ch]) → Tracks (name ++ [ch]) parser.index done) →
      (∀ index, Begins word (name ++ [ch]) index → Tracks (name ++ [ch]) index parser.headerState) →
      (∀ index, Tracks (name ++ [ch]) parser.index done → Tracks (name ++ [ch]) index done) →
      ∃ index headerState, some (parser.matching word done (token ch)) =
        some { parser with index := index, headerState := headerState } ∧
          Tracks (name ++ [ch]) index headerState := by
    intro word done hbegins hend hmore hany
    obtain ⟨index, headerState, heq, rfl | ⟨rfl, hword⟩ | ⟨rfl, hbegins'⟩⟩ :=
      hbegins.matching done ch
    · exact ⟨index, .general, congrArg some heq, trivial⟩
    · exact ⟨index, headerState, congrArg some heq, hany index (hend (.of_eq hword))⟩
    · exact ⟨index, parser.headerState, congrArg some heq, hmore index hbegins'⟩
  -- a word that has been recognized
  have hspace : ∀ headerState, parser.headerState = headerState →
      (ch = 32 → Tracks (name ++ [ch]) parser.index headerState) →
      ∃ index headerState, some (if ch ≠ 32 then { parser with headerState := .general }
        else parser) = some { parser with index := index, headerState := headerState } ∧
          Tracks (name ++ [ch]) index headerState := by
    intro headerState hs hstay
    by_cases hch : ch = 32
    · refine ⟨parser.index, headerState, ?_, hstay hch⟩
      rw [if_neg (not_not.mpr hch), ← hs]
    · exact ⟨parser.index, .general, congrArg some (if_pos hch), trivial⟩
  unfold fieldLetter
  cases hs : parser.headerState with
  | general =>
      have hself : parser = { parser with headerState := .general } := by rw [← hs]
      exact ⟨parser.index, .general, congrArg some hself, trivial⟩
  | c =>
      rw [hs] at h
      obtain ⟨hname, hindex⟩ := h
      refine ⟨parser.index + 1, _, rfl, ?_⟩
      split
      · rename_i hch
        exact ⟨by rw [map_concat hname, hch]; rfl, by rw [hindex]⟩
      · trivial
  | co =>
      rw [hs] at h
      obtain ⟨hname, hindex⟩ := h
      refine ⟨parser.index + 1, _, rfl, ?_⟩
      split
      · rename_i hch
        exact ⟨by rw [map_concat hname, hch]; rfl, by rw [hindex]⟩
      · trivial
  | con =>
      rw [hs] at h
      obtain ⟨hname, hindex⟩ := h
      refine ⟨parser.index + 1, _, rfl, ?_⟩
      split
      · rename_i hch
        exact ⟨by rw [map_concat hname, hch, hindex]; rfl, by rw [hindex]; decide⟩
      · split
        · rename_i hch
          exact ⟨by rw [map_concat hname, hch, hindex]; rfl, by rw [hindex]; decide⟩
        · trivial
  | matchingConnection =>
      rw [hs] at h hmatching
      exact hmatching _ _ h .inl (fun _ => id) (fun _ => id)
  | matchingProxyConnection =>
      rw [hs] at h hmatching
      exact hmatching _ _ h .inr (fun _ => id) (fun _ => id)
  | matchingContentLength | matchingTransferEncoding | matchingUpgrade =>
      rw [hs] at h hmatching
      exact hmatching _ _ h id (fun _ => id) (fun _ => id)
  | connection =>
      rw [hs] at h
      refine hspace _ hs ?_
      rintro rfl
      exact h.imp Names.space Names.space
  | contentLength | transferEncoding | upgrade =>
      rw [hs] at h
      refine hspace _ hs ?_
      rintro rfl
      exact Names.space h
  | _ =>
      rw [hs] at h
      exact h.elim

/-- The state that a first letter leads to. -/
theorem tracks_first (ch : UInt8) : Tracks [ch] 0 (firstHeaderState (token ch)) := by
  have hfirst : ∀ c, token ch = c → Tracks [ch] 0 (firstHeaderState c) := by
    intro c hc
    have hname : [ch].map token = [c] := congrArg (fun c => [c]) hc
    unfold firstHeaderState
    split
    · exact ⟨hname, rfl⟩
    · exact ⟨hname, by decide⟩
    · exact ⟨hname, by decide⟩
    · exact ⟨hname, by decide⟩
    · trivial
  exact hfirst _ rfl

/-- The letters of a name, behind the first one. -/
def letters (parser : Parser) (name : Bytes) : Option Parser :=
  name.foldlM (fun parser ch => parser.fieldLetter ch (token ch)) parser

theorem Tracks.letters (h : Tracks name parser.index parser.headerState) (rest : Bytes) :
    ∃ index headerState, parser.letters rest =
      some { parser with index := index, headerState := headerState } ∧
        Tracks (name ++ rest) index headerState := by
  induction rest generalizing name parser with
  | nil => exact ⟨parser.index, parser.headerState, rfl, by rwa [List.append_nil]⟩
  | cons ch rest ih =>
      obtain ⟨index₁, headerState₁, hletter, h₁⟩ := h.letter ch
      let parser₁ := { parser with index := index₁, headerState := headerState₁ }
      have h₁ : Tracks (name ++ [ch]) parser₁.index parser₁.headerState := h₁
      obtain ⟨index, headerState, hletters, h'⟩ := ih h₁
      refine ⟨index, headerState, ?_, by rwa [← List.append_cons] at h'⟩
      rw [Parser.letters, List.foldlM_cons, hletter]
      exact hletters

theorem token_eq_space : token ch = 32 ↔ ch = 32 :=
  forall_byte (P := fun ch => token ch = 32 ↔ ch = 32) (by decide +kernel) ch

/-- Capital letters are as good as small ones. -/
theorem letters_map_token (name : Bytes) :
    parser.letters name = (name.map token).foldlM (fun parser c => parser.fieldLetter c c) parser := by
  rw [letters, List.foldlM_map]
  refine congrFun (congrArg (List.foldlM · parser) ?_) name
  funext p ch
  unfold fieldLetter
  simp only [ne_eq, token_eq_space]

/-- The names that are known, with the states that they lead to. -/
def knownNames : List (Bytes × HeaderState) :=
  [(bytes "connection", .connection), (bytes "proxy-connection", .connection),
    (bytes "content-length", .contentLength), (bytes "transfer-encoding", .transferEncoding),
    (bytes "upgrade", .upgrade)]

/-- The rest of a word, when the letters up to `index` have been compared. -/
theorem foldlM_matching {m : HeaderState} (hm : ∀ (p : Parser) (c : UInt8), p.headerState = m →
    p.fieldLetter c c = some (p.matching word done c)) {n : Nat} (hs : parser.headerState = m)
    (hn : word.length = parser.index + 2 + n) :
    (word.drop (parser.index + 1)).foldlM (fun parser c => parser.fieldLetter c c) parser =
      some { parser with index := word.length - 1, headerState := done } := by
  induction n generalizing parser with
  | zero =>
      have hlt : parser.index + 1 < word.length := by omega
      have hindex : word.length - 1 = parser.index + 1 := by omega
      rw [List.drop_eq_getElem_cons hlt, List.foldlM_cons, hm parser _ hs, Parser.matching,
        List.drop_eq_nil_of_le (by omega), if_neg, if_pos (by dsimp only; omega), hindex]
      · rfl
      · rw [List.getElem?_eq_getElem hlt]
        simp only [ne_eq, not_true_eq_false, or_false]
        omega
  | succ n ih =>
      have hlt : parser.index + 1 < word.length := by omega
      rw [List.drop_eq_getElem_cons hlt, List.foldlM_cons, hm parser _ hs, Parser.matching, if_neg,
        if_neg (by dsimp only; omega)]
      · let parser₁ := { parser with index := parser.index + 1 }
        exact ih (show parser₁.headerState = m from hs) (by dsimp only; omega)
      · rw [List.getElem?_eq_getElem hlt]
        simp only [ne_eq, not_true_eq_false, or_false]
        omega

/-- A name from its first letter on. -/
theorem foldlM_tail {m : HeaderState} (hm : ∀ (p : Parser) (c : UInt8), p.headerState = m →
    p.fieldLetter c c = some (p.matching word done c)) (hlen : 2 ≤ word.length)
    (hfirst : firstHeaderState (word.headD 0) = m) :
    word.tail.foldlM (fun parser c => parser.fieldLetter c c)
      { parser with index := 0, headerState := firstHeaderState (word.headD 0) } =
        some { parser with index := word.length - 1, headerState := done } := by
  let parser₀ := { parser with index := 0, headerState := firstHeaderState (word.headD 0) }
  have hrest := foldlM_matching (n := word.length - 2) hm (show parser₀.headerState = m from hfirst)
    (show word.length = 0 + 2 + _ by omega)
  rwa [← List.drop_one]

/-- A name that begins with `con`. -/
theorem foldlM_con {m : HeaderState} {c : UInt8} (hm : ∀ (p : Parser) (c : UInt8),
    p.headerState = m → p.fieldLetter c c = some (p.matching word done c))
    (hfirst : word.take 4 = [99, 111, 110, c]) (hlen : 5 ≤ word.length)
    (hc : c = 110 ∧ m = .matchingConnection ∨ c = 116 ∧ m = .matchingContentLength) :
    word.tail.foldlM (fun parser c => parser.fieldLetter c c)
      { parser with index := 0, headerState := .c } =
        some { parser with index := word.length - 1, headerState := done } := by
  let parser₃ := { parser with index := 3, headerState := m }
  have hcon : [111, 110, c].foldlM (fun parser c => parser.fieldLetter c c)
      { parser with index := 0, headerState := .c } = some parser₃ := by
    rcases hc with ⟨rfl, rfl⟩ | ⟨rfl, rfl⟩ <;> rfl
  have htail : word.tail = [111, 110, c] ++ word.drop 4 := by
    conv_lhs => rw [← List.take_append_drop 4 word, hfirst]
    rfl
  have hrest := foldlM_matching (n := word.length - 5) hm (show parser₃.headerState = m from rfl)
    (show word.length = 3 + 2 + _ by omega)
  rw [htail, List.foldlM_append, hcon]
  exact hrest

/-- A known name leads to its state. -/
theorem foldlM_word {word : Bytes} {done : HeaderState} (hmem : (word, done) ∈ knownNames) :
    word.tail.foldlM (fun parser c => parser.fieldLetter c c)
      { parser with index := 0, headerState := firstHeaderState (word.headD 0) } =
        some { parser with index := word.length - 1, headerState := done } := by
  simp only [knownNames, List.mem_cons, Prod.mk.injEq, List.not_mem_nil, or_false] at hmem
  rcases hmem with ⟨rfl, rfl⟩ | ⟨rfl, rfl⟩ | ⟨rfl, rfl⟩ | ⟨rfl, rfl⟩ | ⟨rfl, rfl⟩
  · exact foldlM_con (fun p c hp => by rw [fieldLetter, hp]) (by decide) (by decide)
      (.inl ⟨rfl, rfl⟩)
  · exact foldlM_tail (m := .matchingProxyConnection) (fun p c hp => by rw [fieldLetter, hp])
      (by decide) (by decide)
  · exact foldlM_con (fun p c hp => by rw [fieldLetter, hp]) (by decide) (by decide)
      (.inr ⟨rfl, rfl⟩)
  · exact foldlM_tail (m := .matchingTransferEncoding) (fun p c hp => by rw [fieldLetter, hp])
      (by decide) (by decide)
  · exact foldlM_tail (m := .matchingUpgrade) (fun p c hp => by rw [fieldLetter, hp])
      (by decide) (by decide)

/-- Spaces behind a name that has been recognized. -/
theorem foldlM_spaces {word : Bytes} {done : HeaderState} (hmem : (word, done) ∈ knownNames)
    (hs : parser.headerState = done) (n : Nat) :
    (List.replicate n (32 : UInt8)).foldlM (fun parser c => parser.fieldLetter c c) parser =
      some parser := by
  have hstay : parser.fieldLetter 32 32 = some parser := by
    simp only [knownNames, List.mem_cons, Prod.mk.injEq, List.not_mem_nil, or_false] at hmem
    unfold fieldLetter
    rcases hmem with ⟨-, rfl⟩ | ⟨-, rfl⟩ | ⟨-, rfl⟩ | ⟨-, rfl⟩ | ⟨-, rfl⟩ <;> simp [hs]
  induction n with
  | zero => rfl
  | succ n ih =>
      rw [List.replicate_succ, List.foldlM_cons, hstay]
      exact ih

/-- A name is recognized, whatever letters in it are capital, and with any spaces behind it. -/
theorem letters_of_names (parser : Parser) {done : HeaderState} (hmem : (word, done) ∈ knownNames)
    (h : Names word (ch :: name)) :
    ∃ index, letters { parser with index := 0, headerState := firstHeaderState (token ch) } name =
      some { parser with index := index, headerState := done } := by
  obtain ⟨n, hn⟩ := h
  have hne : ∀ e ∈ knownNames, e.1 ≠ [] := by decide
  obtain ⟨c, tail, rfl⟩ := List.exists_cons_of_ne_nil (hne _ hmem)
  rw [List.map_cons, List.cons_append, List.cons.injEq] at hn
  obtain ⟨hc, htail⟩ := hn
  have hword : tail.foldlM (fun parser c => parser.fieldLetter c c)
      { parser with index := 0, headerState := firstHeaderState c } = _ := foldlM_word hmem
  refine ⟨(c :: tail).length - 1, ?_⟩
  rw [letters_map_token, htail, List.foldlM_append, hc, hword]
  exact foldlM_spaces hmem rfl n

/-- What the state says about a name, at its end. -/
structure Recognized (name : Bytes) (headerState : HeaderState) : Prop where
  connection : headerState = .connection ↔
    Names (bytes "connection") name ∨ Names (bytes "proxy-connection") name
  contentLength : headerState = .contentLength ↔ Names (bytes "content-length") name
  transferEncoding : headerState = .transferEncoding ↔ Names (bytes "transfer-encoding") name
  upgrade : headerState = .upgrade ↔ Names (bytes "upgrade") name

/-- The names that are known are recognized, and no others. -/
theorem letters_recognized (parser : Parser) (ch : UInt8) (name : Bytes) : ∃ index headerState,
    letters { parser with index := 0, headerState := firstHeaderState (token ch) } name =
      some { parser with index := index, headerState := headerState } ∧
        Recognized (ch :: name) headerState := by
  let parser₀ := { parser with index := 0, headerState := firstHeaderState (token ch) }
  obtain ⟨index, headerState, hletters, htracks⟩ :=
    (show Tracks [ch] parser₀.index parser₀.headerState from tracks_first ch).letters name
  refine ⟨index, headerState, hletters, ?_⟩
  have hknown : ∀ word done, (word, done) ∈ knownNames → Names word (ch :: name) →
      headerState = done := by
    intro word done hmem hnames
    obtain ⟨index', hletters'⟩ := letters_of_names parser hmem hnames
    exact congrArg Parser.headerState (Option.some.inj (hletters.symm.trans hletters'))
  refine ⟨⟨?_, ?_⟩, ⟨?_, ?_⟩, ⟨?_, ?_⟩, ⟨?_, ?_⟩⟩
  · rintro rfl
    exact htracks
  · exact fun h => h.elim (hknown _ _ (by decide)) (hknown _ _ (by decide))
  · rintro rfl
    exact htracks
  · exact hknown _ _ (by decide)
  · rintro rfl
    exact htracks
  · exact hknown _ _ (by decide)
  · rintro rfl
    exact htracks
  · exact hknown _ _ (by decide)

/-! ## What is not compared -/

theorem fieldLetter_frame {parser' : Parser} (h : parser.fieldLetter ch c = some parser') :
    ∃ index headerState, parser' = { parser with index := index, headerState := headerState } := by
  have hmatching : ∀ word done, ∃ index headerState, parser.matching word done c =
      { parser with index := index, headerState := headerState } := by
    intro word done
    dsimp only [matching]
    split_ifs <;> exact ⟨_, _, rfl⟩
  have hspace : ∃ index headerState, (if ch ≠ 32 then { parser with headerState := .general }
      else parser) = { parser with index := index, headerState := headerState } := by
    split <;> exact ⟨_, _, rfl⟩
  unfold fieldLetter at h
  split at h <;> cases h
  all_goals first
    | exact hmatching _ _
    | exact hspace
    | exact ⟨_, _, rfl⟩

theorem fieldLetter_nread (parser : Parser) (n : Nat) (ch c : UInt8) :
    fieldLetter { parser with nread := n } ch c =
      (parser.fieldLetter ch c).map fun p => { p with nread := n } := by
  have hmatching : ∀ (p : Parser) word done, matching { p with nread := n } word done c =
      { p.matching word done c with nread := n } := by
    intro p word done
    dsimp only [matching]
    split_ifs <;> rfl
  obtain ⟨http, type, flags, state, headerState, index, nread, len, upgraded⟩ := parser
  cases headerState
  all_goals first
    | rfl
    | exact congrArg some (hmatching _ _ _)
    | (by_cases hch : ch = 32 <;> simp [fieldLetter, hch])

/-- The count of the bytes does not matter for the names. -/
theorem letters_nread (parser : Parser) (n : Nat) (name : Bytes) :
    letters { parser with nread := n } name =
    (parser.letters name).map fun p => { p with nread := n } := by
  induction name generalizing parser with
  | nil => rfl
  | cons ch name ih =>
      rw [letters, List.foldlM_cons, fieldLetter_nread, letters, List.foldlM_cons]
      cases parser.fieldLetter ch (token ch) with
      | none => rfl
      | some parser' => exact ih parser'

end Matching

end Parser

end Gunrock
