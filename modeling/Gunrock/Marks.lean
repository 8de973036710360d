import Gunrock.Parser

/-!
# Open pieces

The parser marks where a piece begins, and hands it on where it ends.  Which pieces are open
between two bytes the state tells: the url, and at most one other (`ParserState.opens`).  That the
scripts for the bytes keep to this is `Parser.tidy_advance`.
-/

namespace Gunrock

/-! ## Sets of pieces -/

/-- The pieces that are open: the url, and at most one other. -/
@[ext] structure Open where
  url : Bool
  other : Option Piece
  other_ne : other ≠ some .url := by decide
deriving DecidableEq

namespace Open

/-- No piece is open. -/
def closed : Open := ⟨false, none, by decide⟩

def has (o : Open) (k : Piece) : Bool := if k = .url then o.url else o.other = some k

/-- `k` is opened, which it was not. -/
def mark (o : Open) (k : Piece) : Option Open :=
  if h : k = .url then if o.url then none else some { o with url := true }
  else if o.other = none then some { o with other := k, other_ne := by simpa using h }
  else none

/-- `k` is closed, which was open. -/
def close (o : Open) (k : Piece) : Option Open :=
  if k = .url then if o.url then some { o with url := false } else none
  else if o.other = some k then some { o with other := none, other_ne := by simp }
  else none

end Open

/-- The pieces that are open between two bytes. -/
def ParserState.opens : ParserState → Open
  | headerField => ⟨false, some .headerField, by decide⟩
  | headerValue => ⟨false, some .headerValue, by decide⟩
  | reqFragment => ⟨true, some .fragment, by decide⟩
  | reqQueryString => ⟨true, some .queryString, by decide⟩
  | reqPath => ⟨true, some .path, by decide⟩
  | reqSchema | reqSchemaSlash | reqSchemaSlashSlash | reqPort | reqQueryStringStart | reqHost
  | reqFragmentStart => ⟨true, none, by decide⟩
  | _ => .closed

/-- The states in which the bytes of a body are read, as many at a time as there are. -/
def ParserState.ofBody : ParserState → Bool
  | bodyIdentity | bodyIdentityEof | chunkData => true
  | _ => false

theorem ParserState.marked_eq (s : ParserState) (k : Piece) : s.marked k = s.opens.has k := by
  cases s <;> cases k <;> rfl

namespace Parser

/-- A script for one byte that opens and closes its pieces in turn, with `o` open at its beginning:
afterwards there is open what the state says.  It stops only when a callback says so, or the message
is complete, which it is already if `done`. -/
def Tidy (done : Bool) : Step → Open → Prop
  | .ret (.next parser count), o => count = 1 ∧ o = parser.state.opens
  | .ret (.stop _ count), _ => count = 0 ∧ done = true
  | .ret (.error _), _ => True
  | .ret .crash, _ => True
  | .call (.mark k) next, o => ∃ o', o.mark k = some o' ∧ Tidy done (next 0) o'
  | .call (.callback _ k) next, o => ∃ o', o.close k = some o' ∧ Tidy done (next 0) o'
  | .call (.notify _ e) next, o =>
    o = .closed ∧ ∀ ret, Tidy (done || ret ≠ 0 || e = .messageComplete) (next ret) o
  | .call (.body _ count) next, o => count = 1 ∧ o = .closed ∧ Tidy done (next 0) o

section Tidy

variable {parser : Parser} {ch c : UInt8} {k : Piece} {o o' : Open} {state : ParserState}
  {step : Step} {b : Bool}

theorem tidy_goOn (h : o = parser.state.opens) : Tidy b parser.goOn o := ⟨rfl, h⟩

theorem tidy_error : Tidy b parser.error o := trivial

theorem tidy_crash : Tidy b crash o := trivial

theorem tidy_mark (ho : o.mark k = some o') (h : Tidy b step o') : Tidy b (mark k step) o :=
  ⟨o', ho, h⟩

theorem tidy_callback (ho : o.close k = some o') (h : Tidy b step o') :
    Tidy b (parser.callback k step) o := ⟨o', ho, h⟩

theorem tidy_ite {p : Prop} [Decidable p] {step' : Step} (h : Tidy b step o) (h' : Tidy b step' o) :
    Tidy b (if p then step else step') o := by
  split
  · exact h
  · exact h'

theorem tidy_callback2 {e : HttpEvent} (h : Tidy (b || e = .messageComplete) step .closed) :
    Tidy b (parser.callback2 e 0 step) .closed := by
  refine ⟨rfl, fun ret => ?_⟩
  by_cases hret : ret = 0
  · simpa [hret] using h
  · simp [hret, Tidy]

theorem tidy_expect (h : state.opens = o) : Tidy b (parser.expect c ch state) o :=
  tidy_ite tidy_error (tidy_goOn h.symm)

theorem opens_newMessage (parser : Parser) : parser.newMessage.state.opens = .closed := by
  unfold newMessage startState
  split
  · split <;> rfl
  · rfl

/-! The first line. -/

theorem tidy_startReqMethodAssign : Tidy b (parser.startReqMethodAssign ch) .closed := by
  unfold startReqMethodAssign
  split
  · exact tidy_goOn rfl
  · exact tidy_error

theorem tidy_startReqOrRes (h : parser.state = .startReqOrRes) :
    Tidy b (parser.startReqOrRes ch) .closed :=
  tidy_ite (tidy_goOn (by rw [h]; rfl))
    (tidy_callback2 (tidy_ite (tidy_goOn rfl) tidy_startReqMethodAssign))

theorem tidy_resOrRespH : Tidy b (parser.resOrRespH ch) .closed :=
  tidy_ite (tidy_goOn rfl) (tidy_ite tidy_error (tidy_goOn rfl))

theorem tidy_startRes (h : parser.state = .startRes) : Tidy b (parser.startRes ch) .closed :=
  tidy_callback2 (tidy_ite (tidy_goOn rfl)
    (tidy_ite (tidy_goOn (by rw [fresh, h]; rfl)) tidy_error))

theorem tidy_startReq (h : parser.state = .startReq) : Tidy b (parser.startReq ch) .closed :=
  tidy_ite (tidy_goOn (by rw [h]; rfl))
    (tidy_callback2 (tidy_ite tidy_error tidy_startReqMethodAssign))

theorem tidy_firstHttpMajor (h : state.opens = .closed) :
    Tidy b (parser.firstHttpMajor ch state) .closed :=
  tidy_ite tidy_error (tidy_goOn h.symm)

theorem tidy_httpMajorDigit (h : state.opens = .closed) (hs : parser.state.opens = .closed) :
    Tidy b (parser.httpMajorDigit ch state) .closed :=
  tidy_ite (tidy_goOn h.symm) (tidy_ite tidy_error (tidy_ite tidy_error (tidy_goOn hs.symm)))

theorem tidy_firstHttpMinor (h : state.opens = .closed) :
    Tidy b (parser.firstHttpMinor ch state) .closed :=
  tidy_ite tidy_error (tidy_goOn h.symm)

theorem tidy_httpMinorDigit (hs : parser.state.opens = .closed) :
    Tidy b (parser.httpMinorDigit ch) .closed :=
  tidy_ite tidy_error (tidy_ite tidy_error (tidy_goOn hs.symm))

theorem tidy_resFirstStatusCode (h : parser.state = .resFirstStatusCode) :
    Tidy b (parser.resFirstStatusCode ch) .closed :=
  tidy_ite (tidy_ite (tidy_goOn (by rw [h]; rfl)) tidy_error) (tidy_goOn rfl)

theorem tidy_resStatusCode (h : parser.state = .resStatusCode) :
    Tidy b (parser.resStatusCode ch) .closed :=
  tidy_ite
    (tidy_ite (tidy_goOn rfl) (tidy_ite (tidy_goOn rfl) (tidy_ite (tidy_goOn rfl) tidy_error)))
    (tidy_ite tidy_error (tidy_goOn (by dsimp only; rw [h]; rfl)))

theorem tidy_reqMethod (h : parser.state = .reqMethod) : Tidy b (parser.reqMethod ch) .closed := by
  refine tidy_ite tidy_error ?_
  cases (methodString parser.method ++ [0])[parser.index]? with
  | none => exact tidy_crash
  | some c =>
      refine tidy_ite (tidy_goOn rfl) (tidy_ite (tidy_goOn (by dsimp only; rw [h]; rfl)) ?_)
      cases parser.switchMethod ch with
      | none => exact tidy_error
      | some method => exact tidy_goOn (by dsimp only; rw [h]; rfl)

/-! The url. -/

/-- The url, which is open, and no other piece. -/
abbrev urlOpen : Open := ⟨true, none, by decide⟩

theorem tidy_reqSpacesBeforeUrl (h : parser.state = .reqSpacesBeforeUrl) :
    Tidy b (parser.reqSpacesBeforeUrl ch) .closed :=
  tidy_ite (tidy_goOn (by rw [h]; rfl))
    (tidy_ite (tidy_mark rfl (tidy_mark rfl (tidy_goOn rfl)))
      (tidy_ite (tidy_mark rfl (tidy_goOn rfl)) tidy_error))

theorem tidy_reqSchema (h : parser.state = .reqSchema) : Tidy b (parser.reqSchema ch) urlOpen :=
  tidy_ite (tidy_goOn (by rw [h]; rfl))
    (tidy_ite (tidy_goOn rfl) (tidy_ite (tidy_goOn rfl) tidy_error))

theorem tidy_reqHost (h : parser.state = .reqHost) : Tidy b (parser.reqHost ch) urlOpen :=
  tidy_ite (tidy_goOn (by rw [h]; rfl)) (tidy_ite (tidy_goOn rfl)
    (tidy_ite (tidy_mark rfl (tidy_goOn rfl))
      (tidy_ite (tidy_callback rfl (tidy_goOn rfl)) tidy_error)))

theorem tidy_reqPort (h : parser.state = .reqPort) : Tidy b (parser.reqPort ch) urlOpen :=
  tidy_ite (tidy_goOn (by rw [h]; rfl))
    (tidy_ite (tidy_mark rfl (tidy_goOn rfl))
      (tidy_ite (tidy_callback rfl (tidy_goOn rfl)) tidy_error))

theorem tidy_reqPath (h : parser.state = .reqPath) :
    Tidy b (parser.reqPath ch) ParserState.reqPath.opens :=
  tidy_ite (tidy_goOn (by rw [h]))
    (tidy_ite (tidy_callback rfl (tidy_callback rfl (tidy_goOn rfl)))
      (tidy_ite (tidy_callback rfl (tidy_callback rfl (tidy_goOn rfl)))
        (tidy_ite (tidy_callback rfl (tidy_callback rfl (tidy_goOn rfl)))
          (tidy_ite (tidy_callback rfl (tidy_goOn rfl))
            (tidy_ite (tidy_callback rfl (tidy_goOn rfl)) tidy_error)))))

theorem tidy_reqQueryStringStart (h : parser.state = .reqQueryStringStart) :
    Tidy b (parser.reqQueryStringStart ch) urlOpen :=
  tidy_ite (tidy_mark rfl (tidy_goOn rfl)) (tidy_ite (tidy_goOn (by rw [h]; rfl))
    (tidy_ite (tidy_callback rfl (tidy_goOn rfl)) (tidy_ite (tidy_callback rfl (tidy_goOn rfl))
      (tidy_ite (tidy_callback rfl (tidy_goOn rfl)) (tidy_ite (tidy_goOn rfl) tidy_error)))))

theorem tidy_reqQueryString (h : parser.state = .reqQueryString) :
    Tidy b (parser.reqQueryString ch) ParserState.reqQueryString.opens :=
  tidy_ite (tidy_goOn (by rw [h]))
    (tidy_ite (tidy_callback rfl (tidy_callback rfl (tidy_goOn rfl)))
      (tidy_ite (tidy_callback rfl (tidy_callback rfl (tidy_goOn rfl)))
        (tidy_ite (tidy_callback rfl (tidy_callback rfl (tidy_goOn rfl)))
          (tidy_ite (tidy_callback rfl (tidy_goOn rfl)) tidy_error))))

theorem tidy_reqFragmentStart (h : parser.state = .reqFragmentStart) :
    Tidy b (parser.reqFragmentStart ch) urlOpen :=
  tidy_ite (tidy_mark rfl (tidy_goOn rfl)) (tidy_ite (tidy_callback rfl (tidy_goOn rfl))
    (tidy_ite (tidy_callback rfl (tidy_goOn rfl)) (tidy_ite (tidy_callback rfl (tidy_goOn rfl))
      (tidy_ite (tidy_goOn (by rw [h]; rfl)) tidy_error))))

theorem tidy_reqFragment (h : parser.state = .reqFragment) :
    Tidy b (parser.reqFragment ch) ParserState.reqFragment.opens :=
  tidy_ite (tidy_goOn (by rw [h]))
    (tidy_ite (tidy_callback rfl (tidy_callback rfl (tidy_goOn rfl)))
      (tidy_ite (tidy_callback rfl (tidy_callback rfl (tidy_goOn rfl)))
        (tidy_ite (tidy_callback rfl (tidy_callback rfl (tidy_goOn rfl))) tidy_error)))

/-! Header fields. -/

theorem tidy_headerAlmostDone : Tidy b (parser.headerAlmostDone ch) .closed :=
  tidy_ite tidy_error (tidy_goOn rfl)

theorem tidy_complete : Tidy b parser.complete .closed :=
  tidy_callback2 (tidy_goOn (opens_newMessage parser).symm)

theorem tidy_beginBody : Tidy b parser.beginBody .closed :=
  tidy_ite (tidy_callback2 ⟨rfl, by simp⟩) (tidy_ite tidy_complete (tidy_ite (tidy_goOn rfl)
    (tidy_ite tidy_complete (tidy_ite (tidy_goOn rfl) (tidy_ite tidy_complete (tidy_goOn rfl))))))

theorem tidy_headersAlmostDone : Tidy b (parser.headersAlmostDone ch) .closed := by
  refine tidy_ite tidy_error (tidy_ite tidy_complete ⟨rfl, fun ret => ?_⟩)
  unfold headersCompleted
  split_ifs with h₀ h₁
  · exact tidy_beginBody
  · exact tidy_beginBody
  · exact ⟨rfl, by simp [h₀]⟩

theorem tidy_headerFieldStart : Tidy b (parser.headerFieldStart ch) .closed :=
  tidy_ite (tidy_goOn rfl) (tidy_ite tidy_headersAlmostDone
    (tidy_ite tidy_error (tidy_mark rfl (tidy_goOn rfl))))

theorem state_matching (parser : Parser) (word : List UInt8) (done : HeaderState) (c : UInt8) :
    (parser.matching word done c).state = parser.state := by
  dsimp only [matching]
  split_ifs <;> rfl

theorem state_fieldLetter {parser' : Parser} (h : parser.fieldLetter ch c = some parser') :
    parser'.state = parser.state := by
  unfold fieldLetter at h
  split at h <;> cases h <;> first
    | rfl
    | exact state_matching _ _ _ _
    | (split <;> rfl)

theorem tidy_headerField (h : parser.state = .headerField) :
    Tidy b (parser.headerField ch) ParserState.headerField.opens := by
  refine tidy_ite ?_ (tidy_ite (tidy_callback rfl (tidy_goOn rfl))
    (tidy_ite (tidy_callback rfl (tidy_goOn rfl))
      (tidy_ite (tidy_callback rfl (tidy_goOn rfl)) tidy_error)))
  cases hl : parser.fieldLetter ch (token ch) with
  | none => exact tidy_crash
  | some parser' => exact tidy_goOn (by rw [state_fieldLetter hl, h])

theorem state_firstLetter {parser' : Parser} (h : parser.firstLetter ch c = some parser') :
    parser'.state = parser.state := by
  unfold firstLetter at h
  split at h <;> (try split at h) <;> cases h <;> rfl

theorem tidy_headerValueStart (h : parser.state = .headerValueStart) :
    Tidy b (parser.headerValueStart ch) .closed := by
  refine tidy_ite (tidy_goOn (by rw [h]; rfl)) (tidy_mark rfl (tidy_ite
    (tidy_ite (tidy_callback rfl (tidy_goOn rfl)) (tidy_ite (tidy_callback rfl (tidy_goOn rfl))
      (tidy_goOn rfl))) ?_))
  cases hl : firstLetter { parser with state := .headerValue, index := 0 } ch
      (acceptableHeader ch) with
  | none => exact tidy_error
  | some parser' => exact tidy_goOn (by rw [state_firstLetter hl]; rfl)

theorem tidy_valueLetter (h : parser.state = .headerValue) :
    Tidy b (parser.valueLetter ch c) ParserState.headerValue.opens := by
  have hmatching : ∀ word done, Tidy b (parser.matching word done c).goOn
      ParserState.headerValue.opens :=
    fun _ _ => tidy_goOn (by rw [state_matching, h])
  unfold valueLetter
  split
  · exact tidy_goOn (by rw [h])
  · exact tidy_crash
  · exact tidy_crash
  · exact tidy_ite (tidy_goOn (by rw [h]))
      (tidy_ite tidy_error (tidy_goOn (by dsimp only; rw [h])))
  · exact hmatching _ _
  · exact hmatching _ _
  · exact hmatching _ _
  · exact tidy_goOn (by split <;> simp only [h])
  · exact tidy_goOn (by split <;> simp only [h])
  · exact tidy_goOn (by split <;> simp only [h])
  · exact tidy_goOn rfl

theorem tidy_headerValue (h : parser.state = .headerValue) :
    Tidy b (parser.headerValue ch) ParserState.headerValue.opens :=
  tidy_ite
    (tidy_ite (tidy_callback rfl (tidy_goOn rfl))
      (tidy_ite (tidy_callback rfl tidy_headerAlmostDone) (tidy_goOn (by rw [h]))))
    (tidy_valueLetter h)

/-! Chunks. -/

theorem tidy_ofChunk (h : Tidy b step o) : Tidy b (parser.ofChunk step) o := tidy_ite h tidy_crash

theorem tidy_chunkSizeStart : Tidy b (parser.chunkSizeStart ch) .closed :=
  tidy_ite tidy_error (tidy_goOn rfl)

theorem tidy_chunkSize (h : parser.state = .chunkSize) : Tidy b (parser.chunkSize ch) .closed :=
  tidy_ite (tidy_goOn rfl) (tidy_ite (tidy_ite (tidy_goOn rfl) tidy_error)
    (tidy_goOn (by dsimp only; rw [h]; rfl)))

theorem tidy_chunkParameters (h : parser.state = .chunkParameters) :
    Tidy b (parser.chunkParameters ch) .closed :=
  tidy_ite (tidy_goOn rfl) (tidy_goOn (by rw [h]; rfl))

theorem tidy_chunkSizeAlmostDone : Tidy b (parser.chunkSizeAlmostDone ch) .closed :=
  tidy_ite tidy_error (tidy_ite (tidy_goOn rfl) (tidy_goOn rfl))

/-! The body, one byte at a time. -/

theorem tidy_bodyIdentity (h : parser.state = .bodyIdentity) :
    Tidy b (parser.bodyIdentity 1) .closed := by
  have hone : ∀ n : Nat, n = (min ((1 : Nat) : Int) parser.contentLength).toNat → 0 < n → n = 1 := by
    omega
  simp only [bodyIdentity]
  split
  · rename_i hpos
    have hn := hone _ rfl hpos
    rw [hn]
    exact ⟨rfl, rfl, tidy_ite (tidy_callback2 ⟨rfl, (opens_newMessage _).symm⟩)
      ⟨rfl, by dsimp only; rw [h]; rfl⟩⟩
  · exact tidy_goOn (by rw [h]; rfl)

theorem tidy_bodyIdentityEof (h : parser.state = .bodyIdentityEof) :
    Tidy b (parser.bodyIdentityEof 1) .closed :=
  ⟨rfl, rfl, rfl, by rw [h]; rfl⟩

theorem tidy_chunkData : Tidy b (parser.chunkData 1) .closed := by
  have hone : ∀ n : Int, n = min ((1 : Nat) : Int) parser.contentLength → 0 < n → n.toNat = 1 := by
    omega
  have hopen : ∀ p : Prop, [Decidable p] →
      ParserState.opens (if p then .chunkDataAlmostDone else .chunkData) = .closed := by
    intro p _
    split <;> rfl
  simp only [chunkData]
  split
  · rename_i hpos
    rw [hone _ rfl hpos]
    exact ⟨rfl, rfl, rfl, (hopen _).symm⟩
  · exact tidy_goOn (hopen _).symm

theorem tidy_step {avail : Nat} (h : parser.state.ofBody = false ∨ avail = 1) :
    Tidy b (parser.step ch avail) parser.state.opens := by
  unfold step
  cases hs : parser.state with
  | dead => exact tidy_error
  | startReqOrRes => exact tidy_startReqOrRes hs
  | resOrRespH => exact tidy_resOrRespH
  | startRes => exact tidy_startRes hs
  | resH | resHT | resHTT | resHTTP | resLineAlmostDone | reqHttpH | reqHttpHT | reqHttpHTT
  | reqHttpHTTP | reqLineAlmostDone | reqSchemaSlash | reqSchemaSlashSlash => exact tidy_expect rfl
  | resFirstHttpMajor | reqFirstHttpMajor => exact tidy_firstHttpMajor rfl
  | resHttpMajor | reqHttpMajor => exact tidy_httpMajorDigit rfl (by rw [hs]; rfl)
  | resFirstHttpMinor | reqFirstHttpMinor => exact tidy_firstHttpMinor rfl
  | resHttpMinor => exact tidy_ite (tidy_goOn rfl) (tidy_httpMinorDigit (by rw [hs]; rfl))
  | reqHttpMinor =>
      exact tidy_ite (tidy_goOn rfl) (tidy_ite (tidy_goOn rfl)
        (tidy_httpMinorDigit (by rw [hs]; rfl)))
  | resFirstStatusCode => exact tidy_resFirstStatusCode hs
  | resStatusCode => exact tidy_resStatusCode hs
  | resStatus =>
      exact tidy_ite (tidy_goOn rfl) (tidy_ite (tidy_goOn rfl) (tidy_goOn (by rw [hs])))
  | startReq => exact tidy_startReq hs
  | reqMethod => exact tidy_reqMethod hs
  | reqSpacesBeforeUrl => exact tidy_reqSpacesBeforeUrl hs
  | reqSchema => exact tidy_reqSchema hs
  | reqHost => exact tidy_reqHost hs
  | reqPort => exact tidy_reqPort hs
  | reqPath => exact tidy_reqPath hs
  | reqQueryStringStart => exact tidy_reqQueryStringStart hs
  | reqQueryString => exact tidy_reqQueryString hs
  | reqFragmentStart => exact tidy_reqFragmentStart hs
  | reqFragment => exact tidy_reqFragment hs
  | reqHttpStart =>
      exact tidy_ite (tidy_goOn rfl) (tidy_ite (tidy_goOn (by rw [hs])) tidy_error)
  | headerFieldStart => exact tidy_headerFieldStart
  | headerField => exact tidy_headerField hs
  | headerValueStart => exact tidy_headerValueStart hs
  | headerValue => exact tidy_headerValue hs
  | headerAlmostDone => exact tidy_headerAlmostDone
  | headersAlmostDone => exact tidy_headersAlmostDone
  | chunkSizeStart => exact tidy_ofChunk tidy_chunkSizeStart
  | chunkSize => exact tidy_ofChunk (tidy_chunkSize hs)
  | chunkParameters => exact tidy_ofChunk (tidy_chunkParameters hs)
  | chunkSizeAlmostDone => exact tidy_ofChunk tidy_chunkSizeAlmostDone
  | chunkDataAlmostDone | chunkDataDone => exact tidy_ofChunk (tidy_expect rfl)
  | bodyIdentity =>
      rw [h.resolve_left (by rw [hs]; decide)]
      exact tidy_bodyIdentity hs
  | bodyIdentityEof =>
      rw [h.resolve_left (by rw [hs]; decide)]
      exact tidy_bodyIdentityEof hs
  | chunkData =>
      rw [h.resolve_left (by rw [hs]; decide)]
      exact tidy_ofChunk tidy_chunkData

/-- Outside a body it does not matter how many bytes are left. -/
theorem tidy_advance {avail : Nat} (h : parser.state.ofBody = false ∨ avail = 1) :
    Tidy b (parser.advance ch avail) parser.state.opens := by
  have hstep : Tidy b (Parser.step { parser with nread := parser.nread + 1 } ch avail)
      parser.state.opens := tidy_step h
  exact tidy_ite (tidy_ite tidy_error hstep) (tidy_step h)

end Tidy

/-! ## Early returns -/

/-- A script that stops only when a callback says so, or the message is complete, which it is already
if `done`. -/
def Stops (done : Bool) : Step → Prop
  | .ret (.stop _ _) => done = true
  | .ret _ => True
  | .call (.notify _ e) next => ∀ ret, Stops (done || ret ≠ 0 || e = .messageComplete) (next ret)
  | .call _ next => Stops done (next 0)

section Stops

variable {parser : Parser} {step step' : Step} {b : Bool}

theorem Tidy.stops {o : Open} (h : Tidy b step o) : Stops b step := by
  induction step generalizing b o with
  | ret a =>
      cases a with
      | stop parser count => exact h.2
      | _ => trivial
  | call op next ih =>
      cases op with
      | mark k | callback parser k =>
          obtain ⟨o', -, h⟩ := h
          exact ih 0 h
      | notify parser e => exact fun ret => ih ret (h.2 ret)
      | body parser count => exact ih 0 h.2.2

theorem stops_ite {p : Prop} [Decidable p] (h : Stops b step) (h' : Stops b step') :
    Stops b (if p then step else step') := by
  split
  · exact h
  · exact h'

theorem stops_callback2 {e : HttpEvent} {count : Nat}
    (h : Stops (b || e = .messageComplete) step) : Stops b (parser.callback2 e count step) := by
  intro ret
  by_cases hret : ret = 0
  · simpa [hret] using h
  · simp [hret, Stops]

theorem stops_advance (parser : Parser) (ch : UInt8) (avail : Nat) :
    Stops b (parser.advance ch avail) := by
  cases hs : parser.state.ofBody with
  | false => exact (tidy_advance (.inl hs)).stops
  | true =>
      have hbody : ∀ parser : Parser, parser.state.ofBody = true → Stops b (parser.step ch avail) := by
        intro parser hs
        unfold step
        cases hstate : parser.state with
        | bodyIdentity => exact stops_ite (stops_ite (stops_callback2 trivial) trivial) trivial
        | bodyIdentityEof => exact stops_ite trivial trivial
        | chunkData => exact stops_ite (stops_ite trivial trivial) trivial
        | _ =>
            rw [hstate] at hs
            cases hs
      exact stops_ite (stops_ite trivial (hbody _ hs)) (hbody _ hs)

end Stops

end Parser

end Gunrock
