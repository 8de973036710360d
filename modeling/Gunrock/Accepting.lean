import Gunrock.Receiving

/-!
# What is received

The parser lets through much that is no request, and still a request that is received is well formed
in what the services rely on: its path is made of `normal_url_char`s and begins with a slash, its
header fields have names made of tokens and values without line ends (`Wire.received_wellFormed`).

All of it follows from what a byte can be when the parser comes to a state in which a piece is open
(`Parser.Goes`).
-/

namespace Gunrock

open Text

/-- All states but those with an open piece whose bytes are restricted. -/
def ParserState.quiet : ParserState → Bool
  | reqPath | reqQueryString | headerField | headerValue => false
  | _ => true

/-- The callbacks without bytes. -/
def HttpEvent.silent : HttpEvent → Bool
  | messageBegin | headersComplete | messageComplete => true
  | _ => false

namespace Parser

/-! ## Transitions -/

/-- What is known when the byte `ch` leads from `s` to `s'`, and the message is complete if `done`. -/
structure Goes (s : ParserState) (ch : UInt8) (done : Bool) (s' : ParserState) : Prop where
  done (h : done = true) : s' = .dead ∨ s' = .startReq ∨ s' = .startRes
  path (h : s' = .reqPath) : normalUrlChar ch = true ∧ (s = .reqPath ∨ ch = 47)
  query (h : s' = .reqQueryString) : normalUrlChar ch = true ∨ ch = 63
  field (h : s' = .headerField) : token ch ≠ 0
  value (h : s' = .headerValue) : ch ≠ 13 ∧ ch ≠ 10

/-- What holds of a step that goes on, for all return values of its callbacks. -/
def Leads (Q : Bool → Parser → Prop) (done : Bool) : Step → Prop
  | .ret (.next parser _) => Q done parser
  | .ret _ => True
  | .call (.notify _ e) next =>
    e.silent = true ∧ ∀ ret, Leads Q (done || e = .messageComplete) (next ret)
  | .call _ next => ∀ ret, Leads Q done (next ret)

section Leads

variable {Q : Bool → Parser → Prop} {parser : Parser} {ch c : UInt8} {k : Piece}
  {s s' state : ParserState} {step step' : Step} {b : Bool} {avail : Nat}

theorem leads_ite {p : Prop} [Decidable p] (h : p → Leads Q b step) (h' : ¬ p → Leads Q b step') :
    Leads Q b (if p then step else step') := by
  split
  · exact h ‹p›
  · exact h' ‹¬ p›

theorem leads_callback (h : Leads Q b step) : Leads Q b (parser.callback k step) :=
  fun _ => leads_ite (fun _ => trivial) (fun _ => h)

theorem leads_callback2 {e : HttpEvent} {count : Nat}
    (h : Leads Q (b || e = .messageComplete) step) (he : e.silent = true := by rfl) :
    Leads Q b (parser.callback2 e count step) :=
  ⟨he, fun _ => leads_ite (fun _ => trivial) (fun _ => h)⟩

theorem Goes.quiet (h : s'.quiet = true) : Goes s ch false s' := by
  refine ⟨nofun, ?_, ?_, ?_, ?_⟩
  all_goals
    rintro rfl
    cases h

theorem goes_newMessage (parser : Parser) : Goes s ch b parser.newMessage.state := by
  have hstate : parser.newMessage.state = .dead ∨ parser.newMessage.state = .startReq ∨
      parser.newMessage.state = .startRes := by
    unfold newMessage startState
    split
    · split
      · exact .inr (.inl rfl)
      · exact .inr (.inr rfl)
    · exact .inl rfl
  constructor
  · exact fun _ => hstate
  all_goals
    intro h
    rcases hstate with hs | hs | hs <;> rw [hs] at h <;> cases h

/-- A step that goes where it may, with the byte `ch`. -/
abbrev Admits (s : ParserState) (ch : UInt8) : Step → Prop :=
  Leads (fun done parser => Goes s ch done parser.state) false

theorem admits_goOn (h : parser.state.quiet = true) : Admits s ch parser.goOn := Goes.quiet h

theorem admits_expect (h : state.quiet = true) : Admits s ch (parser.expect c ch state) :=
  leads_ite (fun _ => trivial) (fun _ => admits_goOn h)

/-! The first line. -/

theorem admits_startReqMethodAssign : Admits s ch (parser.startReqMethodAssign ch) := by
  unfold startReqMethodAssign
  split
  · exact admits_goOn rfl
  · trivial

theorem admits_startReqOrRes (h : parser.state = .startReqOrRes) :
    Admits s ch (parser.startReqOrRes ch) :=
  leads_ite (fun _ => admits_goOn (by rw [h]; rfl)) fun _ => leads_callback2
    (leads_ite (fun _ => admits_goOn rfl) fun _ => admits_startReqMethodAssign)

theorem admits_resOrRespH : Admits s ch (parser.resOrRespH ch) :=
  leads_ite (fun _ => admits_goOn rfl) fun _ =>
    leads_ite (fun _ => trivial) fun _ => admits_goOn rfl

theorem admits_startRes (h : parser.state = .startRes) : Admits s ch (parser.startRes ch) :=
  leads_callback2 (leads_ite (fun _ => admits_goOn rfl) fun _ =>
    leads_ite (fun _ => admits_goOn (by rw [fresh, h]; rfl)) fun _ => trivial)

theorem admits_startReq (h : parser.state = .startReq) : Admits s ch (parser.startReq ch) :=
  leads_ite (fun _ => admits_goOn (by rw [h]; rfl)) fun _ => leads_callback2
    (leads_ite (fun _ => trivial) fun _ => admits_startReqMethodAssign)

theorem admits_firstHttpMajor (h : state.quiet = true) :
    Admits s ch (parser.firstHttpMajor ch state) :=
  leads_ite (fun _ => trivial) fun _ => admits_goOn h

theorem admits_httpMajorDigit (h : state.quiet = true) (hs : parser.state.quiet = true) :
    Admits s ch (parser.httpMajorDigit ch state) :=
  leads_ite (fun _ => admits_goOn h) fun _ => leads_ite (fun _ => trivial) fun _ =>
    leads_ite (fun _ => trivial) fun _ => admits_goOn hs

theorem admits_firstHttpMinor (h : state.quiet = true) :
    Admits s ch (parser.firstHttpMinor ch state) :=
  leads_ite (fun _ => trivial) fun _ => admits_goOn h

theorem admits_httpMinorDigit (hs : parser.state.quiet = true) :
    Admits s ch (parser.httpMinorDigit ch) :=
  leads_ite (fun _ => trivial) fun _ => leads_ite (fun _ => trivial) fun _ => admits_goOn hs

theorem admits_resFirstStatusCode (h : parser.state = .resFirstStatusCode) :
    Admits s ch (parser.resFirstStatusCode ch) :=
  leads_ite (fun _ => leads_ite (fun _ => admits_goOn (by rw [h]; rfl)) fun _ => trivial) fun _ =>
    admits_goOn rfl

theorem admits_resStatusCode (h : parser.state = .resStatusCode) :
    Admits s ch (parser.resStatusCode ch) :=
  leads_ite
    (fun _ => leads_ite (fun _ => admits_goOn rfl) fun _ => leads_ite (fun _ => admits_goOn rfl)
      fun _ => leads_ite (fun _ => admits_goOn rfl) fun _ => trivial)
    fun _ => leads_ite (fun _ => trivial) fun _ => admits_goOn (by dsimp only; rw [h]; rfl)

theorem admits_reqMethod (h : parser.state = .reqMethod) : Admits s ch (parser.reqMethod ch) := by
  refine leads_ite (fun _ => trivial) fun _ => ?_
  cases (methodString parser.method ++ [0])[parser.index]? with
  | none => trivial
  | some c =>
      refine leads_ite (fun _ => admits_goOn rfl) fun _ =>
        leads_ite (fun _ => admits_goOn (by dsimp only; rw [h]; rfl)) fun _ => ?_
      cases parser.switchMethod ch with
      | none => trivial
      | some method => exact admits_goOn (by dsimp only; rw [h]; rfl)

/-! The url. -/

theorem admits_path (h : normalUrlChar ch = true) (hs : s = .reqPath ∨ ch = 47)
    (hp : parser.state = .reqPath) : Admits s ch parser.goOn := by
  have hgoes : Goes s ch false .reqPath := ⟨nofun, fun _ => ⟨h, hs⟩, nofun, nofun, nofun⟩
  rwa [← hp] at hgoes

theorem admits_slash (h : ch = 47) (hp : parser.state = .reqPath) : Admits s ch parser.goOn :=
  admits_path (by rw [h]; decide) (.inr h) hp

theorem admits_query (h : normalUrlChar ch = true ∨ ch = 63) (hp : parser.state = .reqQueryString) :
    Admits s ch parser.goOn := by
  have hgoes : Goes s ch false .reqQueryString := ⟨nofun, nofun, fun _ => h, nofun, nofun⟩
  rwa [← hp] at hgoes

theorem admits_reqSpacesBeforeUrl (h : parser.state = .reqSpacesBeforeUrl) :
    Admits s ch (parser.reqSpacesBeforeUrl ch) :=
  leads_ite (fun _ => admits_goOn (by rw [h]; rfl)) fun _ =>
    leads_ite (fun hch _ _ => admits_slash hch rfl) fun _ =>
      leads_ite (fun _ _ => admits_goOn rfl) fun _ => trivial

theorem admits_reqSchema (h : parser.state = .reqSchema) : Admits s ch (parser.reqSchema ch) :=
  leads_ite (fun _ => admits_goOn (by rw [h]; rfl)) fun _ => leads_ite (fun _ => admits_goOn rfl)
    fun _ => leads_ite (fun _ => admits_goOn rfl) fun _ => trivial

theorem admits_reqHost (h : parser.state = .reqHost) : Admits s ch (parser.reqHost ch) :=
  leads_ite (fun _ => admits_goOn (by rw [h]; rfl)) fun _ => leads_ite (fun _ => admits_goOn rfl)
    fun _ => leads_ite (fun hch _ => admits_slash hch rfl) fun _ =>
      leads_ite (fun _ => leads_callback (admits_goOn rfl)) fun _ => trivial

theorem admits_reqPort (h : parser.state = .reqPort) : Admits s ch (parser.reqPort ch) :=
  leads_ite (fun _ => admits_goOn (by rw [h]; rfl)) fun _ =>
    leads_ite (fun hch _ => admits_slash hch rfl) fun _ =>
      leads_ite (fun _ => leads_callback (admits_goOn rfl)) fun _ => trivial

theorem admits_reqPath (h : parser.state = .reqPath) : Admits .reqPath ch (parser.reqPath ch) :=
  leads_ite (fun hch => admits_path hch (.inl rfl) h) fun _ =>
    leads_ite (fun _ => leads_callback (leads_callback (admits_goOn rfl))) fun _ =>
      leads_ite (fun _ => leads_callback (leads_callback (admits_goOn rfl))) fun _ =>
        leads_ite (fun _ => leads_callback (leads_callback (admits_goOn rfl))) fun _ =>
          leads_ite (fun _ => leads_callback (admits_goOn rfl)) fun _ =>
            leads_ite (fun _ => leads_callback (admits_goOn rfl)) fun _ => trivial

theorem admits_reqQueryStringStart (h : parser.state = .reqQueryStringStart) :
    Admits s ch (parser.reqQueryStringStart ch) :=
  leads_ite (fun hch _ => admits_query (.inl hch) rfl) fun _ =>
    leads_ite (fun _ => admits_goOn (by rw [h]; rfl)) fun _ =>
      leads_ite (fun _ => leads_callback (admits_goOn rfl)) fun _ =>
        leads_ite (fun _ => leads_callback (admits_goOn rfl)) fun _ =>
          leads_ite (fun _ => leads_callback (admits_goOn rfl)) fun _ =>
            leads_ite (fun _ => admits_goOn rfl) fun _ => trivial

theorem admits_reqQueryString (h : parser.state = .reqQueryString) :
    Admits s ch (parser.reqQueryString ch) :=
  leads_ite (fun hch => admits_query hch h) fun _ =>
    leads_ite (fun _ => leads_callback (leads_callback (admits_goOn rfl))) fun _ =>
      leads_ite (fun _ => leads_callback (leads_callback (admits_goOn rfl))) fun _ =>
        leads_ite (fun _ => leads_callback (leads_callback (admits_goOn rfl))) fun _ =>
          leads_ite (fun _ => leads_callback (admits_goOn rfl)) fun _ => trivial

theorem admits_reqFragmentStart (h : parser.state = .reqFragmentStart) :
    Admits s ch (parser.reqFragmentStart ch) :=
  leads_ite (fun _ _ => admits_goOn rfl) fun _ =>
    leads_ite (fun _ => leads_callback (admits_goOn rfl)) fun _ =>
      leads_ite (fun _ => leads_callback (admits_goOn rfl)) fun _ =>
        leads_ite (fun _ => leads_callback (admits_goOn rfl)) fun _ =>
          leads_ite (fun _ => admits_goOn (by rw [h]; rfl)) fun _ => trivial

theorem admits_reqFragment (h : parser.state = .reqFragment) :
    Admits s ch (parser.reqFragment ch) :=
  leads_ite (fun _ => admits_goOn (by rw [h]; rfl)) fun _ =>
    leads_ite (fun _ => leads_callback (leads_callback (admits_goOn rfl))) fun _ =>
      leads_ite (fun _ => leads_callback (leads_callback (admits_goOn rfl))) fun _ =>
        leads_ite (fun _ => leads_callback (leads_callback (admits_goOn rfl))) fun _ => trivial

/-! Header fields. -/

theorem admits_field (h : token ch ≠ 0) (hp : parser.state = .headerField) :
    Admits s ch parser.goOn := by
  have hgoes : Goes s ch false .headerField := ⟨nofun, nofun, nofun, fun _ => h, nofun⟩
  rwa [← hp] at hgoes

theorem admits_value (h : ch ≠ 13 ∧ ch ≠ 10) (hp : parser.state = .headerValue) :
    Admits s ch parser.goOn := by
  have hgoes : Goes s ch false .headerValue := ⟨nofun, nofun, nofun, nofun, fun _ => h⟩
  rwa [← hp] at hgoes

theorem admits_headerAlmostDone : Admits s ch (parser.headerAlmostDone ch) :=
  leads_ite (fun _ => trivial) fun _ => admits_goOn rfl

theorem admits_complete : Admits s ch parser.complete := leads_callback2 (goes_newMessage parser)

theorem admits_beginBody : Admits s ch parser.beginBody :=
  leads_ite (fun _ => leads_callback2 trivial) fun _ => leads_ite (fun _ => admits_complete)
    fun _ => leads_ite (fun _ => admits_goOn rfl) fun _ => leads_ite (fun _ => admits_complete)
      fun _ => leads_ite (fun _ => admits_goOn rfl) fun _ => leads_ite (fun _ => admits_complete)
        fun _ => admits_goOn rfl

theorem admits_headersAlmostDone : Admits s ch (parser.headersAlmostDone ch) :=
  leads_ite (fun _ => trivial) fun _ => leads_ite (fun _ => admits_complete) fun _ => ⟨rfl, fun _ =>
    leads_ite (fun _ => admits_beginBody) fun _ =>
      leads_ite (fun _ => admits_beginBody) fun _ => trivial⟩

theorem admits_headerFieldStart : Admits s ch (parser.headerFieldStart ch) :=
  leads_ite (fun _ => admits_goOn rfl) fun _ => leads_ite (fun _ => admits_headersAlmostDone)
    fun _ => leads_ite (fun _ => trivial) fun htoken _ => admits_field htoken rfl

theorem admits_headerField (h : parser.state = .headerField) :
    Admits s ch (parser.headerField ch) := by
  refine leads_ite (fun htoken => ?_) fun _ => leads_ite (fun _ => leads_callback (admits_goOn rfl))
    fun _ => leads_ite (fun _ => leads_callback (admits_goOn rfl)) fun _ =>
      leads_ite (fun _ => leads_callback (admits_goOn rfl)) fun _ => trivial
  cases hl : parser.fieldLetter ch (token ch) with
  | none => trivial
  | some parser' => exact admits_field htoken ((state_fieldLetter hl).trans h)

/-- The line ends are not acceptable in a header value. -/
theorem not_lineEnd_of_acceptable (h : ¬ acceptableHeader ch = 0) : ch ≠ 13 ∧ ch ≠ 10 := by
  refine ⟨?_, ?_⟩
  all_goals
    rintro rfl
    exact h (by decide)

theorem admits_headerValueStart (h : parser.state = .headerValueStart) :
    Admits s ch (parser.headerValueStart ch) := by
  refine leads_ite (fun _ => admits_goOn (by rw [h]; rfl)) fun _ _ => leads_ite
    (fun _ => leads_ite (fun _ => leads_callback (admits_goOn rfl)) fun hcr =>
      leads_ite (fun _ => leads_callback (admits_goOn rfl)) fun hlf => admits_value ⟨hcr, hlf⟩ rfl)
    fun hok => ?_
  cases hl : firstLetter { parser with state := .headerValue, index := 0 } ch
      (acceptableHeader ch) with
  | none => trivial
  | some parser' => exact admits_value (not_lineEnd_of_acceptable hok) (state_firstLetter hl)

theorem admits_valueLetter (hch : ch ≠ 13 ∧ ch ≠ 10) (h : parser.state = .headerValue) :
    Admits s ch (parser.valueLetter ch c) := by
  have hmatching : ∀ word done, Admits s ch (parser.matching word done c).goOn :=
    fun _ _ => admits_value hch ((state_matching _ _ _ _).trans h)
  unfold valueLetter
  split
  · exact admits_value hch h
  · trivial
  · trivial
  · exact leads_ite (fun _ => admits_value hch h) fun _ =>
      leads_ite (fun _ => trivial) fun _ => admits_value hch h
  · exact hmatching _ _
  · exact hmatching _ _
  · exact hmatching _ _
  · exact admits_value hch (by split <;> exact h)
  · exact admits_value hch (by split <;> exact h)
  · exact admits_value hch (by split <;> exact h)
  · exact admits_value hch rfl

theorem admits_headerValue (h : parser.state = .headerValue) :
    Admits s ch (parser.headerValue ch) :=
  leads_ite
    (fun _ => leads_ite (fun _ => leads_callback (admits_goOn rfl)) fun hcr =>
      leads_ite (fun _ => leads_callback admits_headerAlmostDone) fun hlf =>
        admits_value ⟨hcr, hlf⟩ h)
    fun hok => admits_valueLetter (not_lineEnd_of_acceptable hok) h

/-! The body. -/

theorem admits_ofChunk (h : Admits s ch step) : Admits s ch (parser.ofChunk step) :=
  leads_ite (fun _ => h) fun _ => trivial

theorem admits_chunkSizeStart : Admits s ch (parser.chunkSizeStart ch) :=
  leads_ite (fun _ => trivial) fun _ => admits_goOn rfl

theorem admits_chunkSize (h : parser.state = .chunkSize) : Admits s ch (parser.chunkSize ch) :=
  leads_ite (fun _ => admits_goOn rfl) fun _ => leads_ite
    (fun _ => leads_ite (fun _ => admits_goOn rfl) fun _ => trivial)
    fun _ => admits_goOn (by dsimp only; rw [h]; rfl)

theorem admits_chunkParameters (h : parser.state = .chunkParameters) :
    Admits s ch (parser.chunkParameters ch) :=
  leads_ite (fun _ => admits_goOn rfl) fun _ => admits_goOn (by rw [h]; rfl)

theorem admits_chunkSizeAlmostDone : Admits s ch (parser.chunkSizeAlmostDone ch) :=
  leads_ite (fun _ => trivial) fun _ => leads_ite (fun _ => admits_goOn rfl) fun _ => admits_goOn rfl

theorem admits_bodyIdentity (h : parser.state = .bodyIdentity) :
    Admits s ch (parser.bodyIdentity avail) := by
  have hstay : ∀ p : Parser, p.state = .bodyIdentity → Goes s ch false p.state := by
    intro p hp
    rw [hp]
    exact .quiet rfl
  exact leads_ite
    (fun _ _ => leads_ite (fun _ => leads_callback2 (goes_newMessage _)) fun _ => hstay _ h)
    fun _ => hstay _ h

theorem admits_bodyIdentityEof (h : parser.state = .bodyIdentityEof) :
    Admits s ch (parser.bodyIdentityEof avail) := by
  have hstay : Goes s ch false parser.state := by
    rw [h]
    exact .quiet rfl
  exact leads_ite (fun _ _ => hstay) fun _ => hstay

theorem admits_chunkData : Admits s ch (parser.chunkData avail) := by
  have hnext : ∀ p : Prop, [Decidable p] →
      Goes s ch false (if p then .chunkDataAlmostDone else .chunkData) := by
    intro p _
    split <;> exact .quiet rfl
  exact leads_ite (fun _ _ => hnext _) fun _ => hnext _

/-- Every state goes where it may. -/
theorem admits_step : Admits parser.state ch (parser.step ch avail) := by
  unfold step
  cases hs : parser.state with
  | dead => trivial
  | startReqOrRes => exact admits_startReqOrRes hs
  | resOrRespH => exact admits_resOrRespH
  | startRes => exact admits_startRes hs
  | resH | resHT | resHTT | resHTTP | resLineAlmostDone | reqHttpH | reqHttpHT | reqHttpHTT
  | reqHttpHTTP | reqLineAlmostDone | reqSchemaSlash | reqSchemaSlashSlash =>
      exact admits_expect rfl
  | resFirstHttpMajor | reqFirstHttpMajor => exact admits_firstHttpMajor rfl
  | resHttpMajor | reqHttpMajor => exact admits_httpMajorDigit rfl (by rw [hs]; rfl)
  | resFirstHttpMinor | reqFirstHttpMinor => exact admits_firstHttpMinor rfl
  | resHttpMinor =>
      exact leads_ite (fun _ => admits_goOn rfl) fun _ => admits_httpMinorDigit (by rw [hs]; rfl)
  | reqHttpMinor =>
      exact leads_ite (fun _ => admits_goOn rfl) fun _ => leads_ite (fun _ => admits_goOn rfl)
        fun _ => admits_httpMinorDigit (by rw [hs]; rfl)
  | resFirstStatusCode => exact admits_resFirstStatusCode hs
  | resStatusCode => exact admits_resStatusCode hs
  | resStatus =>
      exact leads_ite (fun _ => admits_goOn rfl) fun _ => leads_ite (fun _ => admits_goOn rfl)
        fun _ => admits_goOn (by rw [hs]; rfl)
  | startReq => exact admits_startReq hs
  | reqMethod => exact admits_reqMethod hs
  | reqSpacesBeforeUrl => exact admits_reqSpacesBeforeUrl hs
  | reqSchema => exact admits_reqSchema hs
  | reqHost => exact admits_reqHost hs
  | reqPort => exact admits_reqPort hs
  | reqPath => exact admits_reqPath hs
  | reqQueryStringStart => exact admits_reqQueryStringStart hs
  | reqQueryString => exact admits_reqQueryString hs
  | reqFragmentStart => exact admits_reqFragmentStart hs
  | reqFragment => exact admits_reqFragment hs
  | reqHttpStart =>
      exact leads_ite (fun _ => admits_goOn rfl) fun _ =>
        leads_ite (fun _ => admits_goOn (by rw [hs]; rfl)) fun _ => trivial
  | headerFieldStart => exact admits_headerFieldStart
  | headerField => exact admits_headerField hs
  | headerValueStart => exact admits_headerValueStart hs
  | headerValue => exact admits_headerValue hs
  | headerAlmostDone => exact admits_headerAlmostDone
  | headersAlmostDone => exact admits_headersAlmostDone
  | bodyIdentity => exact admits_bodyIdentity hs
  | bodyIdentityEof => exact admits_bodyIdentityEof hs
  | chunkSizeStart => exact admits_ofChunk admits_chunkSizeStart
  | chunkSize => exact admits_ofChunk (admits_chunkSize hs)
  | chunkParameters => exact admits_ofChunk (admits_chunkParameters hs)
  | chunkSizeAlmostDone => exact admits_ofChunk admits_chunkSizeAlmostDone
  | chunkData => exact admits_ofChunk admits_chunkData
  | chunkDataAlmostDone | chunkDataDone => exact admits_ofChunk (admits_expect rfl)

theorem admits_advance : Admits parser.state ch (parser.advance ch avail) := by
  have hstep : ∀ p : Parser, Admits p.state ch (p.step ch avail) := fun _ => admits_step
  exact leads_ite (fun _ => leads_ite (fun _ => trivial) fun _ =>
    hstep { parser with nread := parser.nread + 1 }) fun _ => hstep parser

end Leads

end Parser

/-! ## What the object is given -/

namespace HTTP

/-- The name of a header field. -/
def IsToken (field : Bytes) : Prop := ∀ c ∈ field, token c ≠ 0

/-- A value without a line end in it. -/
def IsValue (value : Bytes) : Prop := ∀ c ∈ value, c ≠ 13 ∧ c ≠ 10

/-- A path is made of `normal_url_char`s, from a slash on. -/
structure IsPath (path : Bytes) : Prop where
  normal : ∀ c ∈ path, normalUrlChar c = true
  slash : ∀ c ∈ path.head?, c = 47

/-- All that has been given to the object is well formed. -/
structure WellFormed (http : HTTP) : Prop where
  path : IsPath http.path
  query : ∀ c ∈ http.query, normalUrlChar c = true ∨ c = 63
  field : ∀ f ∈ http.field, IsToken f
  value : ∀ v ∈ http.value, IsValue v
  headers : ∀ h ∈ http.headers, IsToken h.1 ∧ IsValue h.2
  host : http.host = hostOf [] http.headers

end HTTP

/-- The bytes that may be in a piece. -/
def Piece.admits : Piece → UInt8 → Prop
  | .headerField, ch => token ch ≠ 0
  | .headerValue, ch => ch ≠ 13 ∧ ch ≠ 10
  | .queryString, ch => normalUrlChar ch = true ∨ ch = 63
  | .path, ch => normalUrlChar ch = true
  | .fragment, _ | .url, _ => True

namespace HTTP

variable {http http' : HTTP} {parser : HttpParser} {e : HttpEvent} {ret : Int} {k : Piece}
  {bs : Bytes}

theorem wellFormed_new : (new .request).WellFormed where
  path := ⟨by simp [new], by simp [new]⟩
  query := by simp [new]
  field := by simp [new]
  value := by simp [new]
  headers := by simp [new]
  host := rfl

theorem WellFormed.addHeaderField (h : http.WellFormed) (ha : http.addHeaderField = some http') :
    http'.WellFormed ∧ http'.path = http.path := by
  rw [HTTP.addHeaderField] at ha
  split at ha
  · rename_i f v hf hv
    cases ha
    refine ⟨⟨h.path, h.query, by simp, by simp, ?_, ?_⟩, rfl⟩
    · intro e he
      rcases List.mem_append.mp he with he | he
      · exact h.headers e he
      · obtain rfl := List.mem_singleton.mp he
        exact ⟨h.field f hf, h.value v hv⟩
    · simp only [h.host, hostOf, List.foldl_append, List.foldl_cons, List.foldl_nil]
  · cases ha
    exact ⟨h, rfl⟩
  · cases ha

/-- A callback without bytes. -/
theorem WellFormed.notify (h : http.WellFormed) (he : e.silent = true)
    (hcb : http.callback parser e = some (ret, http')) :
    http'.WellFormed ∧ http'.path = http.path := by
  cases called hcb with
  | messageBegin hstate => exact ⟨⟨h.path, h.query, h.field, h.value, h.headers, h.host⟩, rfl⟩
  | headersComplete hadd =>
      obtain ⟨h₁, hpath⟩ := h.addHeaderField hadd
      exact ⟨⟨h₁.path, h₁.query, h₁.field, h₁.value, h₁.headers, h₁.host⟩, hpath⟩
  | reply statusStr hadd htype =>
      obtain ⟨h₁, hpath⟩ := h.addHeaderField hadd
      exact ⟨⟨h₁.path, h₁.query, h₁.field, h₁.value, h₁.headers, h₁.host⟩, hpath⟩
  | messageComplete hmethod => exact ⟨⟨h.path, h.query, h.field, h.value, h.headers, h.host⟩, rfl⟩
  | replyComplete htype => exact ⟨⟨h.path, h.query, h.field, h.value, h.headers, h.host⟩, rfl⟩
  | _ => cases he

theorem WellFormed.appendHeaderValue (h : http.WellFormed) (hbs : IsValue bs)
    (hv : http.appendHeaderValue bs = some http') : http'.WellFormed ∧ http'.path = http.path := by
  obtain ⟨value, hvalue, hout⟩ := Option.bind_eq_some_iff.mp hv
  cases hout
  refine ⟨⟨h.path, h.query, h.field, ?_, h.headers, h.host⟩, rfl⟩
  rintro v ⟨⟩ c hc
  rcases List.mem_append.mp hc with hc | hc
  · exact h.value value hvalue c hc
  · exact hbs c hc

theorem WellFormed.headerField (h : http.WellFormed) (hbs : IsToken bs)
    (hf : http.headerFieldCb bs = some http') : http'.WellFormed ∧ http'.path = http.path := by
  rw [headerFieldCb] at hf
  split at hf
  · obtain ⟨field, hfield, hout⟩ := Option.bind_eq_some_iff.mp hf
    cases hout
    refine ⟨⟨h.path, h.query, ?_, h.value, h.headers, h.host⟩, rfl⟩
    rintro f ⟨⟩ c hc
    rcases List.mem_append.mp hc with hc | hc
    · exact h.field field hfield c hc
    · exact hbs c hc
  · split at hf
    · obtain ⟨http₂, hnew, hout⟩ := Option.bind_eq_some_iff.mp hf
      obtain ⟨http₃, hadd, hnew⟩ := Option.bind_eq_some_iff.mp hnew
      obtain ⟨h₃, hpath⟩ := h.addHeaderField hadd
      cases hout
      cases hnew
      refine ⟨⟨h₃.path, h₃.query, ?_, ?_, h₃.headers, h₃.host⟩, hpath⟩
      · rintro f ⟨⟩
        exact hbs
      · rintro v ⟨⟩
        exact fun c hc => absurd hc List.not_mem_nil
    · cases hf

theorem WellFormed.headerValue (h : http.WellFormed) (hbs : IsValue bs)
    (hv : http.headerValueCb bs = some http') : http'.WellFormed ∧ http'.path = http.path := by
  have hstate : { http with state := .value }.WellFormed :=
    ⟨h.path, h.query, h.field, h.value, h.headers, h.host⟩
  rw [headerValueCb] at hv
  split at hv
  · split at hv
    · exact hstate.appendHeaderValue hbs hv
    · cases hv
  · split at hv
    · exact h.appendHeaderValue hbs hv
    · cases hv

/-- A piece whose bytes are admitted; a path begins with a slash. -/
theorem WellFormed.piece (h : http.WellFormed) (hbs : ∀ c ∈ bs, k.admits c)
    (hslash : k = .path → http.path = [] → ∀ c ∈ bs.head?, c = 47)
    (hp : HTTP.piece k bs http = some http') :
    http'.WellFormed ∧ http'.path = if k = .path then http.path ++ bs else http.path := by
  cases k with
  | headerField => exact h.headerField hbs hp
  | headerValue => exact h.headerValue hbs hp
  | fragment => cases hp
  | queryString =>
      cases hp
      refine ⟨⟨h.path, ?_, h.field, h.value, h.headers, h.host⟩, rfl⟩
      intro c hc
      exact (List.mem_append.mp hc).elim (h.query c) (hbs c)
  | path =>
      cases hp
      refine ⟨⟨⟨?_, ?_⟩, h.query, h.field, h.value, h.headers, h.host⟩, rfl⟩
      · intro c hc
        exact (List.mem_append.mp hc).elim (h.path.normal c) (hbs c)
      · cases hpath : http.path with
        | nil => simpa [hpath] using hslash rfl hpath
        | cons d ds => simpa [hpath] using h.path.slash
  | url =>
      cases hp
      exact ⟨⟨h.path, h.query, h.field, h.value, h.headers, h.host⟩, rfl⟩

end HTTP

/-! ## Bytes -/

namespace Parser

variable {s s' : ParserState} {ch : UInt8} {b b' : Bool} {step : Step} {o : Open} {k : Piece}
  {parser : Parser} {http http' : HTTP}

theorem Goes.admits (h : Goes s ch b s') (ho : s'.opens.other = some k) : k.admits ch := by
  cases s' with
  | headerField =>
      cases ho
      exact h.field rfl
  | headerValue =>
      cases ho
      exact h.value rfl
  | reqQueryString =>
      cases ho
      exact h.query rfl
  | reqPath =>
      cases ho
      exact (h.path rfl).1
  | reqFragment =>
      cases ho
      trivial
  | _ => cases ho

/-- The open pieces go on with a byte that they admit. -/
theorem Goes.extend (h : Goes s ch b s') (hw : http.WellFormed) (hp : s = .reqPath → http.path ≠ [])
    (hx : s'.opens.extend HTTP.piece [ch] http = some http') :
    http'.WellFormed ∧ (s' = .reqPath → http'.path ≠ []) := by
  obtain ⟨http₁, hother, hurl⟩ := Option.bind_eq_some_iff.mp hx
  have hfirst : http₁.WellFormed ∧ (s' = .reqPath → http₁.path ≠ []) := by
    cases ho : s'.opens.other with
    | none =>
        rw [ho] at hother
        cases hother
        refine ⟨hw, ?_⟩
        rintro rfl
        cases ho
    | some k =>
        rw [ho] at hother
        have hslash : k = .path → http.path = [] → ∀ c ∈ [ch].head?, c = 47 := by
          rintro rfl hnil c hc
          obtain rfl : ch = c := by simpa using hc
          have hs' : s' = .reqPath := by
            cases s' <;> cases ho
            rfl
          exact (h.path hs').2.resolve_left fun hs => hp hs hnil
        have hadmits : ∀ c ∈ [ch], k.admits c := by
          intro c hc
          obtain rfl := List.mem_singleton.mp hc
          exact h.admits ho
        obtain ⟨hw₁, hpath⟩ := hw.piece hadmits hslash hother
        refine ⟨hw₁, ?_⟩
        rintro rfl
        obtain rfl : .path = k := Option.some.inj ho
        rw [hpath, if_pos rfl]
        exact List.append_ne_nil_of_right_ne_nil _ (List.cons_ne_nil _ _)
  split at hurl
  · cases hurl
    obtain ⟨hw₁, hpath⟩ := hfirst
    exact ⟨⟨hw₁.path, hw₁.query, hw₁.field, hw₁.value, hw₁.headers, hw₁.host⟩, hpath⟩
  · cases hurl
    exact hfirst

theorem settled_wellFormed (ht : Tidy b step o)
    (hl : Leads (fun done parser => Goes s ch done parser.state) b' step) (hw : http.WellFormed)
    (hp : s = .reqPath → http.path ≠ [])
    (hs : settled HTTP.piece HTTP.callback HTTP.bodyPiece ch step o http = some (parser, http')) :
    http'.WellFormed ∧ (parser.state = .reqPath → http'.path ≠ []) := by
  induction step generalizing b b' o http with
  | ret a =>
      cases a with
      | next parser' count =>
          obtain ⟨http₁, hext, hout⟩ := Option.map_eq_some_iff.mp hs
          cases hout
          exact Goes.extend hl hw hp (ht.2 ▸ hext)
      | stop parser' count => cases hs
      | error parser' => cases hs
      | crash => cases hs
  | call op next ih =>
      cases op with
      | mark k =>
          obtain ⟨o', ho, ht⟩ := ht
          rw [settled, ho, Option.bind_some] at hs
          obtain ⟨http₁, hpiece, hs⟩ := Option.bind_eq_some_iff.mp hs
          obtain ⟨hw₁, hpath⟩ := hw.piece (fun c hc => absurd hc List.not_mem_nil)
            (fun _ _ c hc => absurd hc (by simp)) hpiece
          rw [List.append_nil, ite_self] at hpath
          exact ih 0 ht (hl 0) hw₁ (fun h => hpath ▸ hp h) hs
      | callback parser' k =>
          obtain ⟨o', ho, ht⟩ := ht
          rw [settled, ho, Option.bind_some] at hs
          exact ih 0 ht (hl 0) hw hp hs
      | notify parser' e =>
          obtain ⟨out, hout, hs⟩ := Option.bind_eq_some_iff.mp hs
          obtain ⟨hw₁, hpath⟩ := hw.notify hl.1 hout
          exact ih out.1 (ht.2 _) (hl.2 _) hw₁ (fun h => hpath ▸ hp h) hs
      | body parser' count =>
          obtain ⟨http₁, hbody, hs⟩ := Option.bind_eq_some_iff.mp hs
          cases hbody
          have hw₁ : { http with body := http.body ++ [ch] }.WellFormed :=
            ⟨hw.path, hw.query, hw.field, hw.value, hw.headers, hw.host⟩
          exact ih 0 ht.2.2 (hl 0) hw₁ hp hs

end Parser

/-! ## Complete requests -/

namespace HTTP

variable {http http' : HTTP} {parser : HttpParser} {e : HttpEvent} {ret : Int}

/-- The methods of requests that are received. -/
def methods : List HttpMethod := [.get, .connect, .post, .head, .put, .delete, .move]

/-- A request that is done has a method, and nothing is added to it. -/
def Complete (http : HTTP) : Prop :=
  http.isDone = true → http.state = .done ∧ ∃ m ∈ methods, http.method = some m

/-- Nothing but the last callback sets `m_state` to `DONE`, and no other may come after it. -/
theorem Complete.callback (ht : http.httpType = .request) (h : http.Complete)
    (hcb : http.callback parser e = some (ret, http')) : http'.Complete := by
  have hstate : ∀ state, http.state = state → state ≠ .done → http.isDone = true → http'.Complete :=
    fun state hs hne hd => absurd (hs.symm.trans (h hd).1) hne
  cases called hcb with
  | messageBegin hs => exact fun hd => hstate _ hs (by decide) hd hd
  | url | path | queryString | body => exact h
  | moreField str hs hfield => exact fun hd => hstate _ hs (by decide) hd hd
  | newField str hs hadd =>
      intro hd
      have hd' : http.isDone = true := (httpType_addHeaderField hadd).2.symm.trans hd
      rcases hs with hs | hs
      · exact hstate _ hs (by decide) hd' hd
      · exact hstate _ hs (by decide) hd' hd
  | headerValue str hs hvalue =>
      intro hd
      rcases hs with hs | hs
      · exact hstate _ hs (by decide) hd hd
      · exact hstate _ hs (by decide) hd hd
  | headersComplete hadd =>
      rw [addHeaderField] at hadd
      split at hadd <;> cases hadd
      · exact h
      · exact h
  | reply statusStr hadd htype =>
      rw [(httpType_addHeaderField hadd).1, ht] at htype
      cases htype
  | messageComplete hmethod => exact fun _ => ⟨rfl, parser.method, hmethod, rfl⟩
  | replyComplete htype => exact absurd ht htype

theorem ends_complete :
    Ends callback (fun http => http.Reading ∧ http.Complete) (·.doneParsing = true) where
  keeps hP h := ⟨⟨(ends.keeps hP.1 h).1, hP.2.callback hP.1.httpType h⟩, (ends.keeps hP.1 h).2⟩
  complete hP h := ends.complete hP.1 h
  nonzero hP h := ends.nonzero hP.1 h

end HTTP

namespace Parser

variable {s : ParserState} {ch : UInt8} {b : Bool} {step : Step} {o : Open} {k : Piece}
  {parser : Parser} {http http' : HTTP} {bs : Bytes}

theorem isDone_piece (h : http.Reading) (hp : HTTP.piece k bs http = some http') :
    http'.Reading ∧ http'.isDone = http.isDone := by
  have hcb : http.callback ⟨0, 0, 0, .get⟩ (k.event bs) = some (0, http') :=
    (HTTP.collects.settings_piece _ _ k bs).trans (congrArg (Option.map _) hp)
  refine ⟨(HTTP.ends.keeps h hcb).1, (HTTP.callback_request h.httpType hcb).2.2 ?_⟩
  cases k <;> simp [Piece.event]

/-- Once the request is complete the parser expects a new one, or nothing. -/
theorem settled_final (h : http.Reading)
    (hl : Leads (fun done parser => Goes s ch done parser.state) b step)
    (hb : http.isDone = true → b = true)
    (hs : settled HTTP.piece HTTP.callback HTTP.bodyPiece ch step o http = some (parser, http'))
    (hdone : http'.isDone = true) :
    parser.state = .dead ∨ parser.state = .startReq ∨ parser.state = .startRes := by
  induction step generalizing b o http with
  | ret a =>
      cases a with
      | next parser' count =>
          obtain ⟨http₁, hext, hout⟩ := Option.map_eq_some_iff.mp hs
          cases hout
          obtain ⟨http₂, hother, hurl⟩ := Option.bind_eq_some_iff.mp hext
          refine Goes.done hl (hb ?_)
          have h₂ : http₂.Reading ∧ http₂.isDone = http.isDone := by
            split at hother
            · cases hother
              exact ⟨h, rfl⟩
            · exact isDone_piece h hother
          rw [← h₂.2]
          split at hurl
          · rw [← (isDone_piece h₂.1 hurl).2]
            exact hdone
          · cases hurl
            exact hdone
      | stop parser' count => cases hs
      | error parser' => cases hs
      | crash => cases hs
  | call op next ih =>
      cases op with
      | mark k =>
          obtain ⟨o', -, hs⟩ := Option.bind_eq_some_iff.mp hs
          obtain ⟨http₁, hpiece, hs⟩ := Option.bind_eq_some_iff.mp hs
          obtain ⟨h₁, hd⟩ := isDone_piece h hpiece
          exact ih 0 h₁ (hl 0) (hd ▸ hb) hs
      | callback parser' k =>
          obtain ⟨o', -, hs⟩ := Option.bind_eq_some_iff.mp hs
          exact ih 0 h (hl 0) hb hs
      | notify parser' e =>
          obtain ⟨out, hout, hs⟩ := Option.bind_eq_some_iff.mp hs
          refine ih out.1 (HTTP.ends.keeps h hout).1 (hl.2 _) ?_ hs
          intro hd
          by_cases he : e = .messageComplete
          · simp [he]
          · have hsame := (HTTP.callback_request h.httpType hout).2.2 he
            simp [hb (hsame.symm.trans hd)]
      | body parser' count =>
          obtain ⟨http₁, hbody, hs⟩ := Option.bind_eq_some_iff.mp hs
          cases hbody
          have h₁ : { http with body := http.body ++ [ch] }.Reading :=
            ⟨h.httpType, h.extraParsedBytes⟩
          exact ih 0 h₁ (hl 0) hb hs

end Parser

namespace Wire

variable {parser : Parser} {reads : List Bytes} {http : HTTP} {s s' : Parser × HTTP} {ch : UInt8}
  {data : Bytes}

/-- What is known after each byte. -/
structure Known (s : Parser × HTTP) : Prop extends Between s where
  wellFormed : s.2.WellFormed
  path : s.1.state = .reqPath → s.2.path ≠ []
  complete : s.2.Complete
  final : s.2.isDone = true → s.1.state = .dead ∨ s.1.state = .startReq ∨ s.1.state = .startRes

/-- Behind a complete request only line ends are read. -/
theorem byte_of_done (hstate : s.2.state = .done)
    (hfinal : s.1.state = .dead ∨ s.1.state = .startReq ∨ s.1.state = .startRes)
    (hs : byte s ch = some s') :
    (ch = 13 ∨ ch = 10) ∧ s'.1.state = .startReq ∧ s'.2 = s.2 := by
  obtain ⟨parser, http⟩ := s
  have hbegin : ∀ parser : HttpParser, http.callback parser .messageBegin = none := by
    intro parser
    simp [HTTP.callback, HTTP.messageBeginCb, show http.state = .done from hstate]
  -- a script that begins with `message_begin` comes to nothing
  have hnone : ∀ (p : Parser) (step : Step) (o : Open), Parser.settled HTTP.piece HTTP.callback
      HTTP.bodyPiece ch (p.callback2 .messageBegin 0 step) o http = none := by
    intro p step o
    simp [Parser.callback2, Parser.settled, hbegin]
  have hstep : ∀ p : Parser, p.state = parser.state → Parser.settled HTTP.piece HTTP.callback
      HTTP.bodyPiece ch (p.step ch 1) parser.state.opens http = some s' →
        (ch = 13 ∨ ch = 10) ∧ s'.1.state = .startReq ∧ s'.2 = http := by
    intro p hp hs
    unfold Parser.step at hs
    rcases hfinal with hf | hf | hf
    · rw [hp, hf] at hs
      cases hs
    · rw [hp, hf] at hs
      dsimp only [Parser.startReq] at hs
      split at hs
      · rename_i hch
        cases hs
        exact ⟨hch, hp.trans hf, rfl⟩
      · rw [hnone] at hs
        cases hs
    · rw [hp, hf] at hs
      exact absurd (hs.symm.trans (hnone _ _ _)) (Option.some_ne_none _)
  rw [byte, Parser.byte, Parser.advance] at hs
  split at hs
  · dsimp only at hs
    split at hs
    · cases hs
    · exact hstep { parser with nread := parser.nread + 1 } rfl hs
  · exact hstep parser rfl hs

theorem Known.byte (h : Known s) (hs : byte s ch = some s') : Known s' := by
  have hbetween := h.toBetween.byte hs
  have htidy : Parser.Tidy false (s.1.advance ch 1) s.1.state.opens := Parser.tidy_advance (.inr rfl)
  obtain ⟨hw, hp⟩ := Parser.settled_wellFormed htidy Parser.admits_advance h.wellFormed h.path hs
  obtain ⟨-, hcomplete⟩ :=
    Parser.keeps_byte HTTP.collects HTTP.ends_complete ⟨h.reading, h.complete⟩ hs
  refine ⟨hbetween, hw, hp, hcomplete, fun hdone => ?_⟩
  cases hd : s.2.isDone with
  | true =>
      obtain ⟨-, hreq, -⟩ := byte_of_done (h.complete hd).1 (h.final hd) hs
      exact .inr (.inl hreq)
  | false =>
      have hb : s.2.isDone = true → false = true := fun hd' => hd.symm.trans hd'
      exact Parser.settled_final h.reading Parser.admits_advance hb hs hdone

theorem Known.new (parser : Parser) : Known (parser.init .request, .new .request) where
  toBetween := .new parser
  wellFormed := HTTP.wellFormed_new
  path := nofun
  complete := nofun
  final := nofun

theorem Known.lineEnds (h : Known s) (hdone : s.2.isDone = true)
    (hs : data.foldlM Wire.byte s = some s') : ∀ c ∈ data, c = 13 ∨ c = 10 := by
  induction data generalizing s with
  | nil => exact fun c hc => absurd hc List.not_mem_nil
  | cons ch data ih =>
      obtain ⟨s₁, hbyte, hs⟩ := Option.bind_eq_some_iff.mp hs
      obtain ⟨hch, -, hsame⟩ := byte_of_done (h.complete hdone).1 (h.final hdone) hbyte
      intro c hc
      rcases List.mem_cons.mp hc with rfl | hc
      · exact hch
      · exact ih (h.byte hbyte) (hsame ▸ hdone) hs c hc

theorem known_of_receive (hne : [] ∉ reads) (h : receive parser reads = some (some http))
    (hc : http.isConnect = false) : ∃ s, Known s ∧ s.2 = http ∧ http.isDone = true := by
  obtain ⟨out, hread, hout⟩ := Option.map_eq_some_iff.mp h
  obtain ⟨s, rfl, rfl⟩ := Option.map_eq_some_iff.mp hout
  obtain ⟨hdone, ⟨taken, left, -, hs⟩ | hconnect⟩ :=
    readsAs.foldlM_of_readAll (.new parser) hne hread
  · exact ⟨s, Incremental.foldlM_keeps Known.byte (.new parser) hs, rfl, hdone⟩
  · exact absurd (hc.symm.trans hconnect) Bool.false_ne_true

/-- What is received is well formed, whatever was sent. -/
theorem received_wellFormed (hne : [] ∉ reads) (h : receive parser reads = some (some http))
    (hc : http.isConnect = false) : HTTP.IsPath http.path ∧
      (∀ e ∈ http.headers, HTTP.IsToken e.1 ∧ HTTP.IsValue e.2) ∧
      http.host = HTTP.hostOf [] http.headers ∧ ∃ m ∈ HTTP.methods, http.method = some m := by
  obtain ⟨s, hs, rfl, hdone⟩ := known_of_receive hne h hc
  exact ⟨hs.wellFormed.path, hs.wellFormed.headers, hs.wellFormed.host, (hs.complete hdone).2⟩

theorem received_sample : ∃ http, receive memory [sample] = some (some http) ∧
    http.isConnect = false := by
  have hsome : ((receive memory [sample]).join.any fun http => !http.isConnect) = true := by
    decide +kernel
  cases h : receive memory [sample] with
  | none =>
      rw [h] at hsome
      cases hsome
  | some out =>
      cases out with
      | none =>
          rw [h] at hsome
          cases hsome
      | some http =>
          rw [h] at hsome
          exact ⟨http, rfl, by simpa using hsome⟩

theorem exists_received_wellFormed : ∃ http, receive memory [sample] = some (some http) ∧
    HTTP.IsPath http.path ∧ (∀ e ∈ http.headers, HTTP.IsToken e.1 ∧ HTTP.IsValue e.2) ∧
      http.host = HTTP.hostOf [] http.headers ∧ ∃ m ∈ HTTP.methods, http.method = some m := by
  obtain ⟨http, h, hc⟩ := received_sample
  exact ⟨http, h, received_wellFormed (by decide +kernel) h hc⟩

/-- The last read of a request, after reads that have not completed it. -/
theorem receive_last (hne : [] ∉ reads) (hreads : receive parser reads = some none) :
    ∃ s, Known s ∧ s.2.isDone = false ∧ ∀ data, receive parser (reads ++ [data]) =
      (onRead data s).map fun s => if s.2.isDone then some s.2 else none := by
  have hwait : Incremental.readAll onRead (·.2.isDone) reads
      (parser.init .request, .new .request) = some none := by
    obtain ⟨out, hread, hout⟩ := Option.map_eq_some_iff.mp hreads
    rw [Option.map_eq_none_iff] at hout
    rw [← hout]
    exact hread
  obtain ⟨s, hdone, hs, happend⟩ := readsAs.exists_of_readAll (.new parser) hne hwait
  refine ⟨s, Incremental.foldlM_keeps Known.byte (.new parser) hs, hdone, fun data => ?_⟩
  have hlast : receive parser (reads ++ [data]) =
      (Incremental.readAll onRead (·.2.isDone) [data] s).map (·.map Prod.snd) :=
    congrArg _ (happend [data])
  rw [hlast, Incremental.readAll, if_neg (by simp [hdone])]
  cases onRead data s with
  | none => rfl
  | some s₁ =>
      rw [Option.bind_some, Incremental.readAll, Option.map_some, Option.map_some]
      split <;> rfl

/-- A read with anything but line ends behind the end of a request kills the server, unless what it
makes of it is a `CONNECT`. -/
theorem receive_behind (hne : [] ∉ reads) (hreads : receive parser reads = some none)
    (h : receive parser (reads ++ [data]) = some (some http)) {more : Bytes}
    (hmore : ∃ c ∈ more, c ≠ 13 ∧ c ≠ 10) :
    receive parser (reads ++ [data ++ more]) = none ∨ ∃ http', http'.isConnect = true ∧
      receive parser (reads ++ [data ++ more]) = some (some http') := by
  obtain ⟨s, hknown, hdone, hlast⟩ := receive_last hne hreads
  rw [hlast] at h ⊢
  obtain ⟨s₁, hon, hout⟩ := Option.map_eq_some_iff.mp h
  have hdata : data ≠ [] := by
    rintro rfl
    cases hon
  split at hout
  · rename_i hdone₁
    cases hon' : onRead (data ++ more) s with
    | none => exact .inl rfl
    | some s₂ =>
        rcases readsAs.saved hknown.toBetween (List.append_ne_nil_of_left_ne_nil hdata _) hon' with
          hs₂ | ⟨hdone₂, hconnect⟩
        · -- what is taken as a whole has been taken up to the end of the request
          rw [List.foldlM_append] at hs₂
          obtain ⟨t, ht, hs₂⟩ := Option.bind_eq_some_iff.mp hs₂
          obtain rfl : t = s₁ :=
            Option.some.inj ((hknown.toBetween.onRead hdata hdone ht).symm.trans hon)
          obtain ⟨c, hmem, hcr, hlf⟩ := hmore
          have hknown₁ := Incremental.foldlM_keeps Known.byte hknown ht
          exact absurd (hknown₁.lineEnds hdone₁ hs₂ c hmem) (by simp [hcr, hlf])
        · exact .inr ⟨s₂.2, hconnect, by simp [hdone₂]⟩
  · cases hout

/-- A second request in the same read. -/
theorem receive_behind_sample : receive memory [sample ++ sample] = none ∨ ∃ http',
    http'.isConnect = true ∧ receive memory [sample ++ sample] = some (some http') := by
  obtain ⟨http, h, -⟩ := received_sample
  have hreads : receive memory [] = some none := rfl
  exact receive_behind List.not_mem_nil hreads h ⟨80, by decide +kernel, by decide, by decide⟩

end Wire

end Gunrock
