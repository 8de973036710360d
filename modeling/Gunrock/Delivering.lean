import Mathlib.Data.Bool.AllAny
import Gunrock.Accepting
import Gunrock.Matching

/-!
# Requests that are delivered

A request as a client writes it, and that the server receives what the client meant
(`Wire.receive_text`): the parser is taken through the request line, the header fields and the body,
each of which leaves it in a state that the next one expects (`Wire.Reaches`).
-/

namespace Gunrock

open Text

namespace Wire

/-- The bytes `bs` lead to the object `http'`, and to a parser with `Q`. -/
def Reaches (s : Parser × HTTP) (bs : Bytes) (http' : HTTP) (Q : Parser → Prop) : Prop :=
  ∃ parser', bs.foldlM byte s = some (parser', http') ∧ Q parser'

/-- A parser in the request line, of which it has read `n` bytes. -/
structure InLine (method : HttpMethod) (n : Nat) (state : ParserState) (parser : Parser) : Prop where
  state : parser.state = state
  nread : parser.nread = n
  type : parser.type = .request
  method : parser.method = method
  flags : parser.flags = {}
  contentLength : parser.contentLength = -1
  upgraded : parser.upgraded = false

section Reaches

variable {s : Parser × HTTP} {parser : Parser} {http http' http'' : HTTP} {bs bs' : Bytes} {ch : UInt8}
  {Q Q' : Parser → Prop} {method : HttpMethod} {n : Nat} {state : ParserState}

theorem Reaches.nil (h : Q parser) : Reaches (parser, http) [] http Q := ⟨parser, rfl, h⟩

theorem Reaches.one (parser' : Parser) (h : byte s ch = some (parser', http')) (hQ : Q parser') :
    Reaches s [ch] http' Q := by
  refine ⟨parser', ?_, hQ⟩
  rw [List.foldlM_cons, h]
  rfl

theorem Reaches.append (h : Reaches s bs http' Q)
    (h' : ∀ parser, Q parser → Reaches (parser, http') bs' http'' Q') :
    Reaches s (bs ++ bs') http'' Q' := by
  obtain ⟨parser, hs, hQ⟩ := h
  obtain ⟨parser', hs', hQ'⟩ := h' parser hQ
  refine ⟨parser', ?_, hQ'⟩
  rw [List.foldlM_append, hs]
  exact hs'

theorem Reaches.cons (h : Reaches s [ch] http' Q)
    (h' : ∀ parser, Q parser → Reaches (parser, http') bs http'' Q') :
    Reaches s (ch :: bs) http'' Q' := h.append h'

/-- Bytes each of which does the same. -/
theorem Reaches.all {I : Nat → Parser → Prop} {f : HTTP → UInt8 → HTTP} {P : UInt8 → Prop} {N : Nat}
    (hbyte : ∀ parser http ch n, I n parser → n < N → P ch →
      Reaches (parser, http) [ch] (f http ch) (I (n + 1)))
    (h : I n parser) (hN : n + bs.length ≤ N) (hbs : ∀ ch ∈ bs, P ch) :
    Reaches (parser, http) bs (bs.foldl f http) (I (n + bs.length)) := by
  induction bs generalizing n parser http with
  | nil => exact .nil h
  | cons ch bs ih =>
      rw [List.length_cons] at hN ⊢
      refine (hbyte parser http ch n h (by omega) (hbs ch List.mem_cons_self)).cons fun parser hQ => ?_
      rw [Nat.add_comm bs.length, ← Nat.add_assoc]
      exact ih hQ (by omega) fun ch hch => hbs ch (List.mem_cons_of_mem _ hch)

/-- A byte outside the body. -/
theorem byte_header (hs : parser.state.ofHeader = true) (ht : parser.flags.trailing = false)
    (hn : parser.nread < maxHeaderSize) (http : HTTP) (ch : UInt8) : byte (parser, http) ch =
      Parser.settled HTTP.piece HTTP.callback HTTP.bodyPiece ch
        (Parser.step { parser with nread := parser.nread + 1 } ch 1) parser.state.opens http := by
  have hpar : parser.parsingHeader = true := by simp [Parser.parsingHeader, hs, ht]
  rw [byte, Parser.byte, Parser.advance, if_pos hpar]
  exact congrArg (Parser.settled _ _ _ _ · _ _) (if_neg (Nat.not_lt.mpr hn))

theorem InLine.byte_eq (h : InLine method n state parser) (hs : state.ofHeader = true)
    (hn : n < maxHeaderSize) (http : HTTP) (ch : UInt8) : ∃ parser', InLine method (n + 1) state parser' ∧
      byte (parser, http) ch = Parser.settled HTTP.piece HTTP.callback HTTP.bodyPiece ch
        (parser'.step ch 1) state.opens http := by
  refine ⟨{ parser with nread := parser.nread + 1 }, ⟨h.state, congrArg (· + 1) h.nread, h.type,
    h.method, h.flags, h.contentLength, h.upgraded⟩, ?_⟩
  rw [byte_header (h.state ▸ hs) (by rw [h.flags]) (h.nread ▸ hn), h.state]

/-! ## The request line -/

/-- The methods that the services are asked for. -/
def sentMethods : List HttpMethod := [.get, .head, .post, .put, .delete, .move]

/-- The object once the parser has begun. -/
def begun : HTTP := { HTTP.new .request with state := .header }

theorem reaches_method (parser : Parser) (hm : method ∈ sentMethods) :
    Reaches (parser.init .request, .new .request) (methodString method ++ [32]) begun
      (InLine method ((methodString method).length + 1) .reqSpacesBeforeUrl) := by
  simp only [sentMethods, List.mem_cons, List.not_mem_nil, or_false] at hm
  rcases hm with rfl | rfl | rfl | rfl | rfl | rfl <;>
    exact ⟨_, rfl, rfl, rfl, rfl, rfl, rfl, rfl, rfl⟩

theorem InLine.goto (h : InLine method n state parser) (state' : ParserState) :
    InLine method n state' (parser.goto state') :=
  ⟨rfl, h.nread, h.type, h.method, h.flags, h.contentLength, h.upgraded⟩

/-- The path goes on. -/
def inPath (http : HTTP) (ch : UInt8) : HTTP :=
  { http with url := http.url ++ [ch], path := http.path ++ [ch] }

/-- The url goes on, without the path. -/
def inUrl (http : HTTP) (ch : UInt8) : HTTP := { http with url := http.url ++ [ch] }

/-- The query goes on. -/
def inQuery (http : HTTP) (ch : UInt8) : HTTP :=
  { http with url := http.url ++ [ch], query := http.query ++ [ch] }

theorem goto_self {state : ParserState} (hs : parser.state = state) : parser.goto state = parser := by
  rw [← hs]
  rfl

/-- A byte of the request line, after which the parser is in `t`. -/
theorem InLine.one {t : ParserState} (h : InLine method n state parser)
    (hs : state.ofHeader = true) (hn : n < maxHeaderSize)
    (hbyte : ∀ parser : Parser, parser.state = state →
      Parser.settled HTTP.piece HTTP.callback HTTP.bodyPiece
      ch (parser.step ch 1) state.opens http = some (parser.goto t, http')) :
    Reaches (parser, http) [ch] http' (InLine method (n + 1) t) := by
  obtain ⟨parser', h', heq⟩ := h.byte_eq hs hn http ch
  exact .one _ (heq.trans (hbyte parser' h'.state)) (h'.goto t)

theorem InLine.slash (h : InLine method n .reqSpacesBeforeUrl parser) (hn : n < maxHeaderSize) :
    Reaches (parser, http) [47] (inPath http 47) (InLine method (n + 1) .reqPath) := by
  refine h.one rfl hn fun parser hs => ?_
  have hopen : inPath { http with url := http.url ++ [], path := http.path ++ [] } 47 =
      inPath http 47 := by rw [List.append_nil, List.append_nil]
  rw [Parser.step, hs, ← hopen]
  rfl

theorem InLine.path (h : InLine method n .reqPath parser) (hn : n < maxHeaderSize)
    (hch : normalUrlChar ch = true) :
    Reaches (parser, http) [ch] (inPath http ch) (InLine method (n + 1) .reqPath) := by
  refine h.one rfl hn fun parser hs => ?_
  rw [Parser.step, hs, goto_self hs]
  dsimp only [Parser.reqPath]
  rw [if_pos hch]
  rfl

theorem InLine.query (h : InLine method n .reqPath parser) (hn : n < maxHeaderSize) :
    Reaches (parser, http) [63] (inUrl http 63) (InLine method (n + 1) .reqQueryStringStart) := by
  refine h.one rfl hn fun parser hs => ?_
  rw [Parser.step, hs]
  rfl

theorem InLine.firstQueryChar (h : InLine method n .reqQueryStringStart parser)
    (hn : n < maxHeaderSize) (hch : normalUrlChar ch = true) :
    Reaches (parser, http) [ch] (inQuery http ch) (InLine method (n + 1) .reqQueryString) := by
  refine h.one rfl hn fun parser hs => ?_
  have hopen : inQuery { http with query := http.query ++ [] } ch = inQuery http ch := by
    rw [List.append_nil]
  rw [Parser.step, hs, ← hopen]
  dsimp only [Parser.reqQueryStringStart]
  rw [if_pos hch]
  rfl

theorem InLine.queryChar (h : InLine method n .reqQueryString parser) (hn : n < maxHeaderSize)
    (hch : normalUrlChar ch = true ∨ ch = 63) :
    Reaches (parser, http) [ch] (inQuery http ch) (InLine method (n + 1) .reqQueryString) := by
  refine h.one rfl hn fun parser hs => ?_
  rw [Parser.step, hs, goto_self hs]
  dsimp only [Parser.reqQueryString]
  rw [if_pos hch]
  rfl

/-- The end of the url. -/
theorem InLine.space (h : InLine method n state parser) (hn : n < maxHeaderSize)
    (hs : state ∈ [.reqPath, .reqQueryStringStart, .reqQueryString]) :
    Reaches (parser, http) [32] http (InLine method (n + 1) .reqHttpStart) := by
  simp only [List.mem_cons, List.not_mem_nil, or_false] at hs
  rcases hs with rfl | rfl | rfl
  all_goals
    refine h.one rfl hn fun parser hs => ?_
    rw [Parser.step, hs]
    rfl

/-- A byte that is not part of a piece. -/
theorem InLine.silent {t : ParserState} (h : InLine method n state parser)
    (hs : state.ofHeader = true) (ho : state.opens = .closed) (hn : n < maxHeaderSize)
    (f : Parser → Parser) (hf : ∀ p, InLine method (n + 1) state p → InLine method (n + 1) t (f p))
    (hstep : ∀ p : Parser, p.state = state → p.step ch 1 = (f p).goOn) :
    Reaches (parser, http) [ch] http (InLine method (n + 1) t) := by
  obtain ⟨parser', h', heq⟩ := h.byte_eq hs hn http ch
  refine .one _ (heq.trans ?_) (hf parser' h')
  rw [hstep parser' h'.state, ho]
  rfl

theorem InLine.silent_goto {t : ParserState} (h : InLine method n state parser)
    (hs : state.ofHeader = true) (ho : state.opens = .closed) (hn : n < maxHeaderSize)
    (hstep : ∀ p : Parser, p.state = state → p.step ch 1 = (p.goto t).goOn) :
    Reaches (parser, http) [ch] http (InLine method (n + 1) t) :=
  h.silent hs ho hn _ (fun _ h => h.goto _) hstep

/-- `HTTP/` -/
theorem InLine.protocol (h : InLine method n .reqHttpStart parser) (hn : n + 5 ≤ maxHeaderSize) :
    Reaches (parser, http) [72, 84, 84, 80, 47] http (InLine method (n + 5) .reqFirstHttpMajor) := by
  refine (h.silent_goto (t := .reqHttpH) rfl rfl (by omega) fun p hs => ?_).cons fun _ h =>
    (h.silent_goto (t := .reqHttpHT) rfl rfl (by omega) fun p hs => ?_).cons fun _ h =>
      (h.silent_goto (t := .reqHttpHTT) rfl rfl (by omega) fun p hs => ?_).cons fun _ h =>
        (h.silent_goto (t := .reqHttpHTTP) rfl rfl (by omega) fun p hs => ?_).cons fun _ h =>
          h.silent_goto (t := .reqFirstHttpMajor) rfl rfl (by omega) fun p hs => ?_
  all_goals
    rw [Parser.step, hs]
    rfl

/-- `1.1`, and the end of the line. -/
theorem InLine.version (h : InLine method n .reqFirstHttpMajor parser)
    (hn : n + 5 ≤ maxHeaderSize) :
    Reaches (parser, http) [49, 46, 49, 13, 10] http (InLine method (n + 5) .headerFieldStart) := by
  refine (h.silent (t := .reqHttpMajor) rfl rfl (by omega)
    (fun p => { p with httpMajor := 1, state := .reqHttpMajor }) (fun p h => ⟨rfl, h.nread, h.type,
      h.method, h.flags, h.contentLength, h.upgraded⟩) fun p hs => ?_).cons fun _ h =>
    (h.silent_goto (t := .reqFirstHttpMinor) rfl rfl (by omega) fun p hs => ?_).cons fun _ h =>
      (h.silent (t := .reqHttpMinor) rfl rfl (by omega)
        (fun p => { p with httpMinor := 1, state := .reqHttpMinor }) (fun p h => ⟨rfl, h.nread, h.type,
          h.method, h.flags, h.contentLength, h.upgraded⟩) fun p hs => ?_).cons fun _ h =>
        (h.silent_goto (t := .reqLineAlmostDone) rfl rfl (by omega) fun p hs => ?_).cons
          fun _ h =>
            h.silent_goto (t := .headerFieldStart) rfl rfl (by omega) fun p hs => ?_
  all_goals
    rw [Parser.step, hs]
    rfl

theorem foldl_inPath (bs : Bytes) : bs.foldl inPath http =
    { http with url := http.url ++ bs, path := http.path ++ bs } := by
  induction bs generalizing http with
  | nil => rw [List.foldl_nil, List.append_nil, List.append_nil]
  | cons ch bs ih => rw [List.foldl_cons, ih, inPath, List.append_assoc, List.append_assoc]; rfl

theorem foldl_inQuery (bs : Bytes) : bs.foldl inQuery http =
    { http with url := http.url ++ bs, query := http.query ++ bs } := by
  induction bs generalizing http with
  | nil => rw [List.foldl_nil, List.append_nil, List.append_nil]
  | cons ch bs ih => rw [List.foldl_cons, ih, inQuery, List.append_assoc, List.append_assoc]; rfl

end Reaches

end Wire

/-! ## A request -/

/-- A request as a client writes it. -/
structure SentRequest where
  method : HttpMethod
  path : Bytes
  query : Option Bytes
  headers : List (Bytes × Bytes)
  body : Bytes

namespace SentRequest

/-- What stands behind the path. -/
def queryText (r : SentRequest) : Bytes :=
  match r.query with
  | none => []
  | some query => 63 :: query

def url (r : SentRequest) : Bytes := r.path ++ r.queryText

/-- The first line. -/
def requestLine (r : SentRequest) : Bytes :=
  methodString r.method ++ [32] ++ r.url ++ bytes " HTTP/1.1\r\n"

/-- A request line that the parser takes. -/
structure IsLine (r : SentRequest) : Prop where
  method : r.method ∈ Wire.sentMethods
  slash : r.path.head? = some 47
  path : ∀ ch ∈ r.path, normalUrlChar ch = true
  query : ∀ query ∈ r.query, (∀ ch ∈ query, normalUrlChar ch = true ∨ ch = 63) ∧
    query.head? ≠ some 63

end SentRequest

namespace Wire

variable {r : SentRequest} {parser : Parser} {http : HTTP} {method : HttpMethod} {n : Nat}

/-- The path of a request. -/
theorem InLine.reaches_path (h : InLine method n .reqSpacesBeforeUrl parser) (hr : r.IsLine)
    (hn : n + r.path.length ≤ maxHeaderSize) : Reaches (parser, http) r.path
      { http with url := http.url ++ r.path, path := http.path ++ r.path }
      (InLine method (n + r.path.length) .reqPath) := by
  obtain ⟨c, rest, hpath⟩ : ∃ c rest, r.path = c :: rest := by
    cases hp : r.path with
    | nil =>
        have hslash := hr.slash
        rw [hp] at hslash
        cases hslash
    | cons c rest => exact ⟨c, rest, rfl⟩
  have hslash := hr.slash
  have hnormal := hr.path
  rw [hpath] at hn hslash hnormal ⊢
  obtain rfl : c = 47 := Option.some.inj hslash
  rw [List.length_cons] at hn ⊢
  have hfold : { http with url := http.url ++ 47 :: rest, path := http.path ++ 47 :: rest } =
      rest.foldl inPath (inPath http 47) := by simp [foldl_inPath, inPath]
  rw [hfold, Nat.add_comm rest.length, ← Nat.add_assoc]
  refine (h.slash (by omega)).cons fun parser h => ?_
  exact Reaches.all (I := fun n => InLine method n .reqPath) (N := maxHeaderSize)
    (P := fun ch => normalUrlChar ch = true) (fun _ _ _ _ h hn hch => h.path hn hch) h (by omega)
    fun ch hch => hnormal ch (List.mem_cons_of_mem _ hch)

variable (http) in
/-- The query of a request, if there is one. -/
theorem InLine.reaches_query (h : InLine method n .reqPath parser) (hr : r.IsLine)
    (hn : n + r.queryText.length ≤ maxHeaderSize) : ∃ state ∈ [ParserState.reqPath,
      .reqQueryStringStart, .reqQueryString], Reaches (parser, http) r.queryText
        { http with url := http.url ++ r.queryText, query := http.query ++ r.query.getD [] }
        (InLine method (n + r.queryText.length) state) := by
  unfold SentRequest.queryText at hn ⊢
  cases hq : r.query with
  | none =>
      refine ⟨.reqPath, by decide, ?_⟩
      simp only [Option.getD_none, List.append_nil]
      exact .nil h
  | some query =>
      obtain ⟨hchars, hfirst⟩ := hr.query query hq
      rw [hq] at hn
      rw [List.length_cons] at hn
      simp only [Option.getD_some, List.length_cons]
      cases query with
      | nil =>
          refine ⟨.reqQueryStringStart, by decide, ?_⟩
          rw [List.append_nil]
          exact h.query (by omega)
      | cons c query =>
          refine ⟨.reqQueryString, by decide, ?_⟩
          rw [List.length_cons] at hn
          have hc : normalUrlChar c = true := by
            refine (hchars c List.mem_cons_self).resolve_right ?_
            rintro rfl
            exact hfirst rfl
          have hfold : { http with url := http.url ++ 63 :: c :: query, query := http.query ++ c :: query } =
              query.foldl inQuery (inQuery (inUrl http 63) c) := by
            simp [foldl_inQuery, inQuery, inUrl]
          have hlen : n + ((c :: query).length + 1) = n + 1 + 1 + query.length := by
            rw [List.length_cons]
            omega
          rw [hfold, hlen]
          refine (h.query (by omega)).cons fun parser h => ?_
          refine (h.firstQueryChar (by omega) hc).cons fun parser h => ?_
          exact Reaches.all (I := fun n => InLine method n .reqQueryString) (N := maxHeaderSize)
            (P := fun ch => normalUrlChar ch = true ∨ ch = 63)
            (fun _ _ _ _ h hn hch => h.queryChar hn hch) h (by omega)
            fun ch hch => hchars ch (List.mem_cons_of_mem _ hch)

/-- The object behind the request line. -/
def lineRead (r : SentRequest) : HTTP :=
  { begun with url := r.url, path := r.path, query := r.query.getD [] }

theorem reaches_requestLine (parser : Parser) (hr : r.IsLine)
    (hn : r.requestLine.length ≤ maxHeaderSize) :
    Reaches (parser.init .request, .new .request) r.requestLine (lineRead r)
      (InLine r.method r.requestLine.length .headerFieldStart) := by
  have hversion : bytes " HTTP/1.1\r\n" = [32] ++ ([72, 84, 84, 80, 47] ++ [49, 46, 49, 13, 10]) := by
    decide
  have hlen : r.requestLine.length = (methodString r.method).length + 1 + r.path.length +
      r.queryText.length + 1 + 5 + 5 := by
    simp [SentRequest.requestLine, SentRequest.url, hversion]
    omega
  have htext : r.requestLine = methodString r.method ++ [32] ++ (r.path ++ (r.queryText ++ ([32] ++
      ([72, 84, 84, 80, 47] ++ [49, 46, 49, 13, 10])))) := by
    simp [SentRequest.requestLine, SentRequest.url, hversion]
  rw [hlen] at hn ⊢
  rw [htext]
  refine (reaches_method parser hr.method).append fun parser h => ?_
  refine (h.reaches_path hr (by omega)).append fun parser h => ?_
  obtain ⟨state, hstate, hquery⟩ := h.reaches_query { begun with url := r.path, path := r.path } hr
    (by omega)
  refine Reaches.append hquery fun parser h => ?_
  refine (h.space (by omega) hstate).append fun parser h => ?_
  refine (h.protocol (by omega)).append fun parser h => ?_
  exact h.version (by omega)

/-! ## Header fields -/

/-- What the header fields tell of the body: its length, or `-1` as long as they have not told it,
and whether it comes in chunks. -/
@[ext] structure Framing where
  length : Int
  chunked : Bool

/-- A parser in the header fields, which have told it `framing`. -/
structure InHeader (method : HttpMethod) (framing : Framing) (n : Nat) (state : ParserState)
    (parser : Parser) : Prop where
  state : parser.state = state
  nread : parser.nread = n
  type : parser.type = .request
  method : parser.method = method
  chunked : parser.flags.chunked = framing.chunked
  trailing : parser.flags.trailing = false
  upgrade : parser.flags.upgrade = false
  skipbody : parser.flags.skipbody = false
  contentLength : parser.contentLength = framing.length
  upgraded : parser.upgraded = false

/-- The object that reads the name of a header field. -/
def naming (http : HTTP) (name : Bytes) : HTTP :=
  { http.settled with state := .field, field := some name, value := some [] }

section Header

variable {state : ParserState} {framing : Framing} {chunked : Bool} {ch : UInt8} {name value : Bytes}

theorem InLine.inHeader (h : InLine method n state parser) :
    InHeader method ⟨-1, false⟩ n state parser :=
  ⟨h.state, h.nread, h.type, h.method, by rw [h.flags], by rw [h.flags], by rw [h.flags],
    by rw [h.flags], h.contentLength, h.upgraded⟩

theorem InHeader.byte_eq {out : Option (Parser × HTTP)} (h : InHeader method framing n state parser)
    (hs : state.ofHeader = true) (hn : n < maxHeaderSize)
    (hout : ∀ p : Parser, p = { parser with nread := n + 1 } → p.state = state →
      Parser.settled HTTP.piece HTTP.callback HTTP.bodyPiece ch (p.step ch 1) state.opens http = out) :
    byte (parser, http) ch = out := by
  obtain rfl := h.state
  obtain rfl := h.nread
  rw [byte_header hs h.trailing hn]
  exact hout _ rfl rfl

/-- A parser that differs in what is compared. -/
theorem InHeader.with (h : InHeader method framing n state parser) (state' : ParserState)
    (n' index : Nat) (headerState : HeaderState) : InHeader method framing n' state'
      { parser with state := state', nread := n', index := index, headerState := headerState } :=
  ⟨rfl, rfl, h.type, h.method, h.chunked, h.trailing, h.upgrade, h.skipbody, h.contentLength,
    h.upgraded⟩

theorem InHeader.tick (h : InHeader method framing n state parser) :
    InHeader method framing (n + 1) state { parser with nread := n + 1 } :=
  ⟨h.state, rfl, h.type, h.method, h.chunked, h.trailing, h.upgrade, h.skipbody, h.contentLength,
    h.upgraded⟩

theorem piece_headerField (hr : http.Ready) :
    HTTP.piece .headerField [] http = some (naming http []) := by
  have hne : http.state ≠ .field := by
    rcases hr.state with hs | hs <;> simp [hs]
  simp [HTTP.piece, HTTP.headerFieldCb, HTTP.newHeaderField, hne, hr.state.symm, hr.addHeaderField,
    naming]

/-- The first letter of a name. -/
theorem InHeader.firstLetter (h : InHeader method framing n .headerFieldStart parser) (hr : http.Ready)
    (hn : n < maxHeaderSize) (hch : token ch ≠ 0) : byte (parser, http) ch = some
      ({ parser with
        state := .headerField
        nread := n + 1
        index := 0
        headerState := Parser.firstHeaderState (token ch) }, naming http [ch]) := by
  have hcr : ch ≠ 13 := by
    rintro rfl
    exact hch (by decide)
  have hlf : ch ≠ 10 := by
    rintro rfl
    exact hch (by decide)
  refine h.byte_eq rfl hn fun p hp hs => ?_
  rw [Parser.step, hs]
  dsimp only [Parser.headerFieldStart]
  rw [if_neg hcr, if_neg hlf, if_neg hch, hp]
  change (HTTP.piece .headerField [] http).bind (Parser.settled HTTP.piece HTTP.callback
    HTTP.bodyPiece ch (Parser.goOn _) ParserState.headerField.opens) = _
  rw [piece_headerField hr]
  rfl

/-- One more letter of a name. -/
theorem InHeader.letter {parser' : Parser} (h : InHeader method framing n .headerField parser)
    (hn : n < maxHeaderSize) (hch : token ch ≠ 0)
    (hletter : parser.fieldLetter ch (token ch) = some parser') :
    byte (parser, naming http name) ch =
      some ({ parser' with nread := n + 1 }, naming http (name ++ [ch])) := by
  refine h.byte_eq rfl hn fun p hp hs => ?_
  rw [Parser.step, hs]
  dsimp only [Parser.headerField]
  rw [if_pos hch, hp, Parser.fieldLetter_nread, hletter]
  have hopens : parser'.state.opens = ParserState.headerField.opens :=
    congrArg _ ((Parser.state_fieldLetter hletter).trans h.state)
  rfl

/-- The letters of a name, behind the first one. -/
theorem InHeader.letters (h : InHeader method framing n .headerField parser) {rest : Bytes}
    (hn : n + rest.length ≤ maxHeaderSize) (hrest : HTTP.IsToken rest) {index : Nat}
    {headerState : HeaderState} (hletters : parser.letters rest =
      some { parser with index := index, headerState := headerState }) :
    rest.foldlM byte (parser, naming http name) = some
      ({ parser with nread := n + rest.length, index := index, headerState := headerState },
        naming http (name ++ rest)) := by
  induction rest generalizing n parser name with
  | nil =>
      have heq : parser = { parser with index := index, headerState := headerState } :=
        Option.some.inj hletters
      have hnread := h.nread
      rw [List.append_nil, List.length_nil, Nat.add_zero, ← hnread, ← heq]
      rfl
  | cons ch rest ih =>
      rw [List.length_cons] at hn ⊢
      rw [Parser.letters, List.foldlM_cons] at hletters
      obtain ⟨parser', hletter, hletters⟩ := Option.bind_eq_some_iff.mp hletters
      obtain ⟨index₁, headerState₁, rfl⟩ := Parser.fieldLetter_frame hletter
      have hrest' : HTTP.IsToken rest := fun c hc => hrest c (List.mem_cons_of_mem _ hc)
      have hletters' : Parser.letters { parser with
          nread := n + 1, index := index₁, headerState := headerState₁ } rest = some { parser with
            nread := n + 1, index := index, headerState := headerState } := by
        have hnread := Parser.letters_nread
          { parser with index := index₁, headerState := headerState₁ } (n + 1) rest
        rw [show Parser.letters { parser with index := index₁, headerState := headerState₁ } rest = _
          from hletters] at hnread
        exact hnread
      have h' : InHeader method framing (n + 1) .headerField { parser with
          nread := n + 1, index := index₁, headerState := headerState₁ } :=
        ⟨h.state, rfl, h.type, h.method, h.chunked, h.trailing, h.upgrade, h.skipbody,
          h.contentLength, h.upgraded⟩
      rw [List.foldlM_cons, h.letter (by omega) (hrest ch List.mem_cons_self) hletter]
      refine (ih h' (by omega) hrest' hletters').trans ?_
      rw [← List.append_cons, Nat.add_right_comm, Nat.add_assoc n]

/-- The colon behind a name. -/
theorem InHeader.colon (h : InHeader method framing n .headerField parser) (hn : n < maxHeaderSize) :
    Reaches (parser, http) [58] http fun p => InHeader method framing (n + 1) .headerValueStart p ∧
      p.headerState = parser.headerState := by
  refine .one _ (h.byte_eq rfl hn fun p hp hs => ?_)
    ⟨h.with .headerValueStart (n + 1) parser.index parser.headerState, rfl⟩
  rw [Parser.step, hs, hp]
  rfl

/-- The space in front of a value. -/
theorem InHeader.blank (h : InHeader method framing n .headerValueStart parser)
    (hn : n < maxHeaderSize) : Reaches (parser, http) [32] http fun p =>
      InHeader method framing (n + 1) .headerValueStart p ∧ p.headerState = parser.headerState := by
  refine .one _ (h.byte_eq rfl hn fun p hp hs => ?_) ⟨h.tick, rfl⟩
  rw [Parser.step, hs, hp]
  rfl

/-- What is known when a value ends in the state `s`. -/
def Framing.after (framing : Framing) (s : HeaderState) : Framing :=
  if s = .transferEncodingChunked then { framing with chunked := true } else framing

theorem Framing.after_of_ne {s : HeaderState} (hs : s ≠ .transferEncodingChunked) :
    framing.after s = framing := if_neg hs

/-- The line end behind a value. -/
theorem InHeader.lineEnd (h : InHeader method framing n .headerAlmostDone parser)
    (hn : n < maxHeaderSize) : Reaches (parser, http) [10] http
      (InHeader method (framing.after parser.headerState) (n + 1) .headerFieldStart) := by
  have hstep : ∃ p', InHeader method (framing.after parser.headerState) (n + 1) .headerFieldStart p' ∧
      Parser.headerAlmostDone { parser with nread := n + 1 } 10 = p'.goOn := by
    refine ⟨_, ?_, rfl⟩
    by_cases hs : parser.headerState = .transferEncodingChunked
    · rw [hs]
      exact ⟨rfl, rfl, h.type, h.method, rfl, h.trailing, h.upgrade, h.skipbody, h.contentLength,
        h.upgraded⟩
    rw [Framing.after_of_ne hs]
    refine ⟨rfl, rfl, h.type, h.method, ?_, ?_, ?_, ?_, h.contentLength, h.upgraded⟩
    · dsimp only
      split
      · exact h.chunked
      · exact h.chunked
      · rename_i hchunked
        exact absurd hchunked hs
      · exact h.chunked
    · dsimp only
      split <;> exact h.trailing
    · dsimp only
      split <;> exact h.upgrade
    · dsimp only
      split <;> exact h.skipbody
  obtain ⟨p', h', hstep⟩ := hstep
  refine .one _ (h.byte_eq rfl hn fun p hp hs => ?_) h'
  rw [Parser.step, hs, hp]
  dsimp only
  rw [hstep]
  have hopens : p'.state.opens = .closed := congrArg _ h'.state
  rfl

/-- The states of a value that is of no matter for the body. -/
def plainStates : List HeaderState :=
  [.general, .matchingConnectionKeepAlive, .matchingConnectionClose, .connectionKeepAlive,
    .connectionClose]

/-- The states of a name that is of no matter for the body. -/
def plainName (s : HeaderState) : Prop :=
  s ≠ .contentLength ∧ s ≠ .transferEncoding ∧ s ≠ .upgrade

/-- The first byte of a value. -/
theorem InHeader.valueStart (h : InHeader method framing n .headerValueStart parser)
    (hn : n < maxHeaderSize) (hch : ch ≠ 13 ∧ ch ≠ 10) (hspace : ch ≠ 32)
    (hname : plainName parser.headerState) :
    Reaches (parser, naming http name) [ch] (http.enter (name, [ch])) fun p =>
      InHeader method framing (n + 1) .headerValue p ∧ p.headerState ∈ plainStates := by
  -- what is compared is of no matter, if the byte is compared at all
  have hplain : ∀ s ∈ plainStates, InHeader method framing (n + 1) .headerValue { parser with
      state := .headerValue, nread := n + 1, index := 0, headerState := s } :=
    fun s _ => h.with .headerValue (n + 1) 0 s
  have hfirst : ∃ s ∈ plainStates, Parser.firstLetter { parser with
      state := .headerValue, nread := n + 1, index := 0 } ch (acceptableHeader ch) = some { parser with
        state := .headerValue, nread := n + 1, index := 0, headerState := s } := by
    obtain ⟨hlen, htransfer, hupgrade⟩ := hname
    unfold Parser.firstLetter
    dsimp only
    split
    · contradiction
    · contradiction
    · contradiction
    · refine ⟨_, ?_, rfl⟩
      split_ifs <;> decide
    · exact ⟨.general, by decide, rfl⟩
  obtain ⟨s, hs, hfirst⟩ := hfirst
  by_cases hok : acceptableHeader ch = 0
  · refine .one _ (h.byte_eq rfl hn fun p hp hstate => ?_)
      ⟨hplain .general (by decide), List.mem_cons_self⟩
    rw [Parser.step, hstate, hp]
    dsimp only [Parser.headerValueStart]
    rw [if_neg hspace, if_pos hok, if_neg hch.1, if_neg hch.2]
    rfl
  · refine .one _ (h.byte_eq rfl hn fun p hp hstate => ?_) ⟨hplain s hs, hs⟩
    rw [Parser.step, hstate, hp]
    dsimp only [Parser.headerValueStart]
    rw [if_neg hspace, if_neg hok, hfirst]
    rfl

theorem matching_plain (word : Bytes) (c : UInt8) {done : HeaderState}
    (hs : parser.headerState ∈ plainStates) (hdone : done ∈ plainStates) :
    ∃ index, ∃ s ∈ plainStates, parser.matching word done c =
      { parser with index := index, headerState := s } := by
  dsimp only [Parser.matching]
  split_ifs
  · exact ⟨_, .general, by decide, rfl⟩
  · exact ⟨_, done, hdone, rfl⟩
  · exact ⟨_, parser.headerState, hs, rfl⟩

/-- What is compared stays of no matter. -/
theorem valueLetter_plain (hs : parser.headerState ∈ plainStates) (ch c : UInt8) :
    ∃ index, ∃ s ∈ plainStates, parser.valueLetter ch c =
      Parser.goOn { parser with index := index, headerState := s } := by
  have hspace : ∃ index, ∃ s ∈ plainStates,
      (if ch ≠ 32 then { parser with headerState := .general } else parser).goOn =
        Parser.goOn { parser with index := index, headerState := s } := by
    split
    · exact ⟨parser.index, .general, by decide, rfl⟩
    · exact ⟨parser.index, parser.headerState, hs, rfl⟩
  have hs' := hs
  simp only [plainStates, List.mem_cons, List.not_mem_nil, or_false] at hs'
  unfold Parser.valueLetter
  rcases hs' with heq | heq | heq | heq | heq <;> simp only [heq]
  · refine ⟨parser.index, .general, by decide, ?_⟩
    rw [← heq]
  · obtain ⟨index, s, hmem, hmatching⟩ := matching_plain (bytes "keep-alive") c hs
      (show HeaderState.connectionKeepAlive ∈ plainStates by decide)
    exact ⟨index, s, hmem, congrArg _ hmatching⟩
  · obtain ⟨index, s, hmem, hmatching⟩ := matching_plain (bytes "close") c hs
      (show HeaderState.connectionClose ∈ plainStates by decide)
    exact ⟨index, s, hmem, congrArg _ hmatching⟩
  · exact hspace
  · exact hspace

/-- A byte of a value that is of no matter. -/
theorem InHeader.valueByte (h : InHeader method framing n .headerValue parser)
    (hn : n < maxHeaderSize) (hch : ch ≠ 13 ∧ ch ≠ 10) (hs : parser.headerState ∈ plainStates) :
    Reaches (parser, http.enter (name, value)) [ch] (http.enter (name, value ++ [ch])) fun p =>
      InHeader method framing (n + 1) .headerValue p ∧ p.headerState ∈ plainStates := by
  by_cases hok : acceptableHeader ch = 0
  · refine .one _ (h.byte_eq rfl hn fun p hp hstate => ?_) ⟨h.tick, hs⟩
    rw [Parser.step, hstate, hp]
    dsimp only [Parser.headerValue]
    rw [if_pos hok, if_neg hch.1, if_neg hch.2]
    rfl
  · have hs' : ({ parser with nread := n + 1 } : Parser).headerState ∈ plainStates := hs
    obtain ⟨index, s, hmem, hletter⟩ := valueLetter_plain hs' ch (acceptableHeader ch)
    have h' : InHeader method framing (n + 1) .headerValue { parser with
        nread := n + 1, index := index, headerState := s } :=
      ⟨h.state, rfl, h.type, h.method, h.chunked, h.trailing, h.upgrade, h.skipbody,
        h.contentLength, h.upgraded⟩
    refine .one _ (h.byte_eq rfl hn fun p hp hstate => ?_) ⟨h', hmem⟩
    rw [Parser.step, hstate, hp]
    dsimp only [Parser.headerValue]
    rw [if_neg hok, hletter]
    rfl

/-- The line end behind a value, which may ask for chunks. -/
theorem InHeader.valueEnd (h : InHeader method framing n .headerValue parser)
    (hn : n + 2 ≤ maxHeaderSize) : Reaches (parser, http) [13, 10] http
      (InHeader method (framing.after parser.headerState) (n + 2) .headerFieldStart) := by
  have hcr : Reaches (parser, http) [13] http fun p =>
      InHeader method framing (n + 1) .headerAlmostDone p ∧ p.headerState = parser.headerState := by
    refine .one _ (h.byte_eq rfl (by omega) fun p hp hstate => ?_)
      ⟨h.with .headerAlmostDone (n + 1) parser.index parser.headerState, rfl⟩
    rw [Parser.step, hstate, hp]
    rfl
  exact hcr.cons fun p hp => hp.2 ▸ hp.1.lineEnd (by omega)

/-- A value that is empty. -/
theorem InHeader.emptyValue (h : InHeader method framing n .headerValueStart parser)
    (hn : n + 2 ≤ maxHeaderSize) : Reaches (parser, naming http name) [13, 10]
      (http.enter (name, [])) (InHeader method framing (n + 2) .headerFieldStart) := by
  have hcr : Reaches (parser, naming http name) [13] (http.enter (name, [])) fun p =>
      InHeader method framing (n + 1) .headerAlmostDone p ∧ p.headerState = .general := by
    refine .one _ (h.byte_eq rfl (by omega) fun p hp hstate => ?_)
      ⟨h.with .headerAlmostDone (n + 1) 0 .general, rfl⟩
    rw [Parser.step, hstate, hp]
    rfl
  refine hcr.cons fun p hp => ?_
  have hend : Reaches (p, http.enter (name, [])) [10] _ _ := hp.1.lineEnd (by omega)
  rw [hp.2] at hend
  exact hend

/-- The bytes of a value that are left. -/
theorem InHeader.valueBytes {more : Bytes} (h : InHeader method framing n .headerValue parser)
    (hs : parser.headerState ∈ plainStates) (hmore : HTTP.IsValue more)
    (hn : n + more.length + 2 ≤ maxHeaderSize) :
    Reaches (parser, http.enter (name, value)) (more ++ [13, 10]) (http.enter (name, value ++ more))
      (InHeader method framing (n + more.length + 2) .headerFieldStart) := by
  induction more generalizing parser n value with
  | nil =>
      have hne : parser.headerState ≠ .transferEncodingChunked := by
        intro heq
        rw [heq] at hs
        revert hs
        decide
      have hend : Reaches (parser, http.enter (name, value)) [13, 10] _ _ := h.valueEnd hn
      rw [Framing.after_of_ne hne] at hend
      rw [List.append_nil]
      exact hend
  | cons ch more ih =>
      rw [List.length_cons] at hn
      refine (h.valueByte (by omega) (hmore ch List.mem_cons_self) hs).cons fun parser h => ?_
      rw [List.append_cons value ch more, List.length_cons, Nat.add_comm more.length, ← Nat.add_assoc]
      exact ih h.1 h.2 (fun c hc => hmore c (List.mem_cons_of_mem _ hc)) (by omega)

/-- A value that is of no matter. -/
theorem InHeader.reaches_value (h : InHeader method framing n .headerValueStart parser)
    (hname : plainName parser.headerState) (hvalue : HTTP.IsValue value)
    (hspace : value.head? ≠ some 32) (hn : n + value.length + 2 ≤ maxHeaderSize) :
    Reaches (parser, naming http name) (value ++ [13, 10]) (http.enter (name, value))
      (InHeader method framing (n + value.length + 2) .headerFieldStart) := by
  cases value with
  | nil => exact h.emptyValue hn
  | cons ch value =>
      rw [List.length_cons] at hn
      have hch : ch ≠ 32 := fun heq => hspace (congrArg some heq)
      refine (h.valueStart (by omega) (hvalue ch List.mem_cons_self) hch hname).cons
        fun parser h => ?_
      rw [List.length_cons, Nat.add_comm value.length, ← Nat.add_assoc]
      exact h.1.valueBytes h.2 (fun c hc => hvalue c (List.mem_cons_of_mem _ hc)) (by omega)

/-! ### The length of the body -/

theorem int64_natCast {m : Nat} (hm : m < 2 ^ 63) : int64 m = m := by
  refine Int.bmod_eq_of_le ?_ ?_ <;> omega

theorem isDigit_facts (hch : isDigit ch = true) :
    acceptableHeader ch ≠ 0 ∧ ch ≠ 32 ∧ ch ≠ 13 ∧ ch ≠ 10 :=
  forall_byte (P := fun ch => isDigit ch = true →
    acceptableHeader ch ≠ 0 ∧ ch ≠ 32 ∧ ch ≠ 13 ∧ ch ≠ 10) (by decide +kernel) ch hch

/-- A parser that has read the digits `ds` of the length of the body. -/
structure Counting (method : HttpMethod) (chunked : Bool) (ds : Bytes) (n : Nat) (parser : Parser) :
    Prop where
  inHeader : InHeader method ⟨digitsValue ds, chunked⟩ n .headerValue parser
  headerState : parser.headerState = .contentLength

/-- The first digit. -/
theorem InHeader.firstDigit (h : InHeader method framing n .headerValueStart parser)
    (hn : n < maxHeaderSize) (hch : isDigit ch = true) (hs : parser.headerState = .contentLength) :
    Reaches (parser, naming http name) [ch] (http.enter (name, [ch]))
      (Counting method framing.chunked [ch] (n + 1)) := by
  obtain ⟨hok, hspace, -, -⟩ := isDigit_facts hch
  have hfirst : Parser.firstLetter { parser with
      state := .headerValue, nread := n + 1, index := 0 } ch (acceptableHeader ch) = some { parser with
        state := .headerValue
        nread := n + 1
        index := 0
        contentLength := (ch.toNat - 48 : Nat) } := by
    rw [Parser.firstLetter, hs]
    exact if_neg (not_not.mpr hch)
  have hvalue : digitsValue [ch] = ch.toNat - 48 := by simp [digitsValue]
  have h' : Counting method framing.chunked [ch] (n + 1) { parser with
      state := .headerValue
      nread := n + 1
      index := 0
      contentLength := (ch.toNat - 48 : Nat) } :=
    ⟨⟨rfl, rfl, h.type, h.method, h.chunked, h.trailing, h.upgrade, h.skipbody,
      congrArg Nat.cast hvalue.symm, h.upgraded⟩, hs⟩
  refine .one _ (h.byte_eq rfl hn fun p hp hstate => ?_) h'
  rw [Parser.step, hstate, hp]
  dsimp only [Parser.headerValueStart]
  rw [if_neg hspace, if_neg hok, hfirst]
  rfl

/-- One more digit, as long as the length is no more than the parser can count. -/
theorem Counting.digit (h : Counting method chunked value n parser) (hn : n < maxHeaderSize)
    (hch : isDigit ch = true) (hlt : digitsValue (value ++ [ch]) < 2 ^ 63) :
    Reaches (parser, http.enter (name, value)) [ch] (http.enter (name, value ++ [ch]))
      (Counting method chunked (value ++ [ch]) (n + 1)) := by
  obtain ⟨hok, hspace, -, -⟩ := isDigit_facts hch
  rw [digitsValue_concat] at hlt
  have hi := h.inHeader
  have hcount : int64 (int64 (parser.contentLength * 10) + (ch.toNat - 48 : Nat)) =
      (digitsValue (value ++ [ch]) : Nat) := by
    have hshift : (digitsValue value : Int) * 10 = ((10 * digitsValue value : Nat) : Int) := by
      rw [Nat.mul_comm]
      rfl
    rw [hi.contentLength, hshift, int64_natCast (by omega), digitsValue_concat]
    exact int64_natCast hlt
  have h' : Counting method chunked (value ++ [ch]) (n + 1) { parser with
      nread := n + 1
      contentLength := int64 (int64 (parser.contentLength * 10) + (ch.toNat - 48 : Nat)) } :=
    ⟨⟨hi.state, rfl, hi.type, hi.method, hi.chunked, hi.trailing, hi.upgrade, hi.skipbody, hcount,
      hi.upgraded⟩, h.headerState⟩
  refine .one _ (hi.byte_eq rfl hn fun p hp hstate => ?_) h'
  rw [Parser.step, hstate, hp]
  dsimp only [Parser.headerValue]
  rw [if_neg hok, Parser.valueLetter, h.headerState]
  dsimp only
  rw [if_neg hspace, if_neg (not_not.mpr hch)]
  rfl

/-- Digits only make a number larger. -/
theorem digitsValue_le (ds ds' : Bytes) : digitsValue ds ≤ digitsValue (ds ++ ds') := by
  induction ds' using List.reverseRecOn with
  | nil => rw [List.append_nil]
  | append_singleton ds' c ih =>
      rw [← List.append_assoc, digitsValue_concat]
      omega

theorem Counting.digits {more : Bytes} (h : Counting method chunked value n parser)
    (hdigits : ∀ c ∈ more, isDigit c = true) (hlt : digitsValue (value ++ more) < 2 ^ 63)
    (hn : n + more.length + 2 ≤ maxHeaderSize) :
    Reaches (parser, http.enter (name, value)) (more ++ [13, 10]) (http.enter (name, value ++ more))
      (InHeader method ⟨digitsValue (value ++ more), chunked⟩ (n + more.length + 2) .headerFieldStart) := by
  induction more generalizing parser n value with
  | nil =>
      have hend : Reaches (parser, http.enter (name, value)) [13, 10] _ _ := h.inHeader.valueEnd hn
      rw [h.headerState] at hend
      rw [List.append_nil]
      exact hend
  | cons ch more ih =>
      rw [List.length_cons] at hn
      rw [List.append_cons value] at hlt ⊢
      have hlt' := (digitsValue_le (value ++ [ch]) more).trans_lt hlt
      refine (h.digit (by omega) (hdigits ch List.mem_cons_self) hlt').cons fun parser h => ?_
      rw [List.length_cons, Nat.add_comm more.length, ← Nat.add_assoc]
      exact ih h (fun c hc => hdigits c (List.mem_cons_of_mem _ hc)) hlt (by omega)

/-- The length of the body, written as a number. -/
theorem InHeader.reaches_length {size : Nat} (h : InHeader method framing n .headerValueStart parser)
    (hs : parser.headerState = .contentLength) (hsize : size < 2 ^ 63)
    (hn : n + (decimal size).length + 2 ≤ maxHeaderSize) :
    Reaches (parser, naming http name) (decimal size ++ [13, 10]) (http.enter (name, decimal size))
      (InHeader method { framing with length := size } (n + (decimal size).length + 2)
        .headerFieldStart) := by
  have hdigits : ∀ c ∈ decimal size, isDigit c = true := fun c hc => isDigit_of_mem_decimal hc
  have hvalue := digitsValue_decimal size
  obtain ⟨ch, more, hcons⟩ := List.exists_cons_of_ne_nil (decimal_ne_nil size)
  rw [hcons] at hn hdigits hvalue ⊢
  rw [List.length_cons] at hn
  refine (h.firstDigit (by omega) (hdigits ch List.mem_cons_self) hs).cons fun parser h => ?_
  have hmore : Reaches (parser, http.enter (name, [ch])) (more ++ [13, 10])
      (http.enter (name, [ch] ++ more)) _ :=
    h.digits (fun c hc => hdigits c (List.mem_cons_of_mem _ hc))
      (by rw [List.singleton_append, hvalue]; exact hsize) (by omega)
  rw [List.singleton_append, hvalue] at hmore
  rw [List.length_cons, Nat.add_comm more.length, ← Nat.add_assoc]
  exact hmore

/-! ### A body in chunks -/

/-- The state of a value of which the letters up to the `index`-th one are those of `chunked`. -/
def chunkedState (index : Nat) : HeaderState :=
  if index + 1 = (bytes "chunked").length then .transferEncodingChunked
  else .matchingTransferEncodingChunked

/-- A letter is compared with the one that is next. -/
theorem matching_chunked {c : UInt8} (hs : parser.headerState = .matchingTransferEncodingChunked)
    (hc : (bytes "chunked")[parser.index + 1]? = some c) :
    parser.matching (bytes "chunked") .transferEncodingChunked c =
      { parser with
        index := parser.index + 1
        headerState := chunkedState (parser.index + 1) } := by
  have hlt : parser.index + 1 < (bytes "chunked").length := (List.getElem?_eq_some_iff.mp hc).1
  dsimp only [Parser.matching]
  rw [if_neg (not_or.mpr ⟨hlt.not_gt, not_not.mpr hc⟩), chunkedState, hs]
  split <;> rfl

/-- The letters that are left. -/
theorem InHeader.chunkedLetters {more : Bytes} (h : InHeader method framing n .headerValue parser)
    (hs : parser.headerState = chunkedState parser.index)
    (hmore : more.map acceptableHeader = (bytes "chunked").drop (parser.index + 1))
    (hlt : parser.index < (bytes "chunked").length) (hn : n + more.length + 2 ≤ maxHeaderSize) :
    Reaches (parser, http.enter (name, value)) (more ++ [13, 10]) (http.enter (name, value ++ more))
      (InHeader method { framing with chunked := true } (n + more.length + 2)
        .headerFieldStart) := by
  induction more generalizing parser n value with
  | nil =>
      have hend : Reaches (parser, http.enter (name, value)) [13, 10] _ _ := h.valueEnd hn
      have hlen : parser.index + 1 = (bytes "chunked").length := by
        have hle := List.drop_eq_nil_iff.mp hmore.symm
        omega
      rw [hs, chunkedState, if_pos hlen] at hend
      rw [List.append_nil]
      exact hend
  | cons ch more ih =>
      rw [List.length_cons] at hn
      have hc : (bytes "chunked")[parser.index + 1]? = some (acceptableHeader ch) := by
        rw [← List.head?_drop, ← hmore]
        rfl
      have hnext : parser.index + 1 < (bytes "chunked").length :=
        (List.getElem?_eq_some_iff.mp hc).1
      have hok : acceptableHeader ch ≠ 0 := by
        have hletters : ∀ c ∈ bytes "chunked", c ≠ 0 := List.all_iff_forall_prop.mp
          (show ((bytes "chunked").all fun c => decide (c ≠ 0)) = true by decide)
        exact hletters _ (List.mem_of_getElem? hc)
      have hmatching : parser.headerState = .matchingTransferEncodingChunked := by
        rw [hs, chunkedState, if_neg hnext.ne]
      have h' : InHeader method framing (n + 1) .headerValue { parser with
          nread := n + 1
          index := parser.index + 1
          headerState := chunkedState (parser.index + 1) } :=
        ⟨h.state, rfl, h.type, h.method, h.chunked, h.trailing, h.upgrade, h.skipbody,
          h.contentLength, h.upgraded⟩
      have hletter : Reaches (parser, http.enter (name, value)) [ch]
          (http.enter (name, value ++ [ch])) fun p => p = { parser with
            nread := n + 1
            index := parser.index + 1
            headerState := chunkedState (parser.index + 1) } := by
        refine .one _ (h.byte_eq rfl (by omega) fun p hp hstate => ?_) rfl
        have hc' : (bytes "chunked")[({ parser with nread := n + 1 } : Parser).index + 1]? =
            some (acceptableHeader ch) := hc
        rw [Parser.step, hstate, hp]
        dsimp only [Parser.headerValue]
        rw [if_neg hok, Parser.valueLetter, hmatching]
        dsimp only
        have hmatching' : ({ parser with nread := n + 1 } : Parser).headerState =
          .matchingTransferEncodingChunked := hmatching
        rw [← hmatching, matching_chunked hmatching' hc']
        rfl
      refine hletter.cons fun p hp => ?_
      rw [hp, List.append_cons value ch more, List.length_cons, Nat.add_comm more.length,
        ← Nat.add_assoc]
      refine ih h' rfl ?_ hnext (by omega)
      rw [← List.drop_drop, ← hmore]
      rfl

/-- A value that asks for chunks. -/
theorem InHeader.reaches_chunked (h : InHeader method framing n .headerValueStart parser)
    (hs : parser.headerState = .transferEncoding)
    (hvalue : value.map acceptableHeader = bytes "chunked")
    (hn : n + value.length + 2 ≤ maxHeaderSize) :
    Reaches (parser, naming http name) (value ++ [13, 10]) (http.enter (name, value))
      (InHeader method { framing with chunked := true } (n + value.length + 2)
        .headerFieldStart) := by
  cases value with
  | nil =>
      have hne : bytes "chunked" ≠ [] := by decide
      exact absurd hvalue.symm hne
  | cons ch value =>
      rw [List.length_cons] at hn
      have hword : bytes "chunked" = 99 :: (bytes "chunked").drop 1 := by decide
      rw [hword] at hvalue
      obtain ⟨hch, hvalue⟩ := List.cons.inj hvalue
      have hok : acceptableHeader ch ≠ 0 := by
        rw [hch]
        decide
      have hspace : ch ≠ 32 := by
        rintro rfl
        revert hch
        decide
      have hfirst : Reaches (parser, naming http name) [ch] (http.enter (name, [ch])) fun p =>
          p = { parser with
            state := .headerValue
            nread := n + 1
            index := 0
            headerState := chunkedState 0 } := by
        refine .one _ (h.byte_eq rfl (by omega) fun p hp hstate => ?_) rfl
        rw [Parser.step, hstate, hp]
        dsimp only [Parser.headerValueStart]
        rw [if_neg hspace, if_neg hok, Parser.firstLetter, hs, hch]
        rfl
      refine hfirst.cons fun p hp => ?_
      rw [hp, List.length_cons, Nat.add_comm value.length, ← Nat.add_assoc]
      exact (h.with .headerValue (n + 1) 0 (chunkedState 0)).chunkedLetters rfl hvalue
        (show 0 < (bytes "chunked").length by decide) (by omega)

/-! ### A line -/

/-- The name of a header field, with what stands behind it. -/
theorem InHeader.reaches_name (h : InHeader method framing n .headerFieldStart parser) (hr : http.Ready)
    (hne : name ≠ []) (hname : HTTP.IsToken name) (hn : n + name.length + 2 ≤ maxHeaderSize) :
    Reaches (parser, http) (name ++ [58, 32]) (naming http name) fun p =>
      InHeader method framing (n + name.length + 2) .headerValueStart p ∧
        Parser.Recognized name p.headerState := by
  obtain ⟨ch, rest, rfl⟩ := List.exists_cons_of_ne_nil hne
  rw [List.length_cons] at hn
  have hrest : HTTP.IsToken rest := fun c hc => hname c (List.mem_cons_of_mem _ hc)
  let parser₁ := { parser with
    state := .headerField
    nread := n + 1
    index := 0
    headerState := Parser.firstHeaderState (token ch) }
  obtain ⟨index, headerState, hletters, hrecognized⟩ := Parser.letters_recognized parser₁ ch rest
  have h₁ : InHeader method framing (n + 1) .headerField parser₁ := h.with _ _ _ _
  have hfold : rest.foldlM byte (parser₁, naming http [ch]) = _ :=
    h₁.letters (by omega) hrest hletters
  have hrun : Reaches (parser, http) (ch :: rest) (naming http (ch :: rest)) fun p =>
      InHeader method framing (n + 1 + rest.length) .headerField p ∧
        Parser.Recognized (ch :: rest) p.headerState := by
    refine ⟨_, ?_, h.with .headerField (n + 1 + rest.length) index headerState, hrecognized⟩
    rw [List.foldlM_cons, h.firstLetter hr (by omega) (hname ch List.mem_cons_self)]
    exact hfold
  refine hrun.append fun p hp => (hp.1.colon (by omega)).cons fun p' hp' => ?_
  obtain ⟨p'', hbyte, hblank, hsame⟩ : Reaches (p', naming http (ch :: rest)) [32] _ _ :=
    hp'.1.blank (by omega)
  refine ⟨p'', hbyte, ?_, ?_⟩
  · rw [List.length_cons, Nat.add_comm rest.length, ← Nat.add_assoc]
    exact hblank
  · rw [hsame, hp'.2]
    exact hp.2

/-- A line of the header. -/
def headerLine (h : Bytes × Bytes) : Bytes := h.1 ++ bytes ": " ++ h.2 ++ bytes "\r\n"

/-- A header field that the parser takes for a request whose body has the length `size`. -/
structure IsField (size : Nat) (h : Bytes × Bytes) : Prop where
  ne_nil : h.1 ≠ []
  token : HTTP.IsToken h.1
  value : HTTP.IsValue h.2
  space : h.2.head? ≠ some 32
  contentLength : Parser.Names (bytes "content-length") h.1 → h.2 = decimal size
  transferEncoding : ¬ Parser.Names (bytes "transfer-encoding") h.1
  upgrade : ¬ Parser.Names (bytes "upgrade") h.1

/-- A header field that asks for a body in chunks. -/
structure IsChunked (h : Bytes × Bytes) : Prop where
  token : HTTP.IsToken h.1
  transferEncoding : Parser.Names (bytes "transfer-encoding") h.1
  chunked : h.2.map acceptableHeader = bytes "chunked"

open scoped Classical in
/-- What is known behind a header field, when `framing` was known before. -/
noncomputable def told (size : Nat) (framing : Framing) (h : Bytes × Bytes) : Framing where
  length := if Parser.Names (bytes "content-length") h.1 then size else framing.length
  chunked := if Parser.Names (bytes "transfer-encoding") h.1 then true else framing.chunked

theorem told_contentLength {size : Nat} {h : Bytes × Bytes}
    (hlength : Parser.Names (bytes "content-length") h.1)
    (htransfer : ¬ Parser.Names (bytes "transfer-encoding") h.1) :
    told size framing h = { framing with length := size } := by
  rw [told, if_pos hlength, if_neg htransfer]

theorem told_chunked {size : Nat} {h : Bytes × Bytes}
    (hlength : ¬ Parser.Names (bytes "content-length") h.1)
    (htransfer : Parser.Names (bytes "transfer-encoding") h.1) :
    told size framing h = { framing with chunked := true } := by
  rw [told, if_neg hlength, if_pos htransfer]

theorem told_of_not {size : Nat} {h : Bytes × Bytes}
    (hlength : ¬ Parser.Names (bytes "content-length") h.1)
    (htransfer : ¬ Parser.Names (bytes "transfer-encoding") h.1) : told size framing h = framing := by
  rw [told, if_neg hlength, if_neg htransfer]

theorem InHeader.reaches_line {size : Nat} {e : Bytes × Bytes}
    (h : InHeader method framing n .headerFieldStart parser) (hr : http.Ready)
    (he : IsField size e ∨ IsChunked e) (hsize : size < 2 ^ 63)
    (hn : n + (headerLine e).length ≤ maxHeaderSize) :
    Reaches (parser, http) (headerLine e) (http.enter e)
      (InHeader method (told size framing e) (n + (headerLine e).length) .headerFieldStart) := by
  obtain ⟨name, value⟩ := e
  have hcolon : bytes ": " = [58, 32] := by decide
  have hcrlf : bytes "\r\n" = [13, 10] := by decide
  have hline : headerLine (name, value) = name ++ [58, 32] ++ (value ++ [13, 10]) := by
    simp [headerLine, hcolon, hcrlf]
  have hlen : n + (headerLine (name, value)).length = n + name.length + 2 + value.length + 2 := by
    simp [hline]
    omega
  rw [hlen] at hn ⊢
  rw [hline]
  have hname : name ≠ [] ∧ HTTP.IsToken name := by
    rcases he with he | he
    · exact ⟨he.ne_nil, he.token⟩
    · exact ⟨he.transferEncoding.ne_nil (by decide), he.token⟩
  refine (h.reaches_name hr hname.1 hname.2 (by omega)).append fun p hp => ?_
  obtain ⟨hp, hrecognized⟩ := hp
  rcases he with he | he
  · have htransfer : ¬ Parser.Names (bytes "transfer-encoding") name := he.transferEncoding
    by_cases hnames : Parser.Names (bytes "content-length") name
    · have hvalue : value = decimal size := he.contentLength hnames
      subst hvalue
      rw [told_contentLength hnames htransfer]
      exact hp.reaches_length (hrecognized.contentLength.mpr hnames) hsize hn
    · rw [told_of_not hnames htransfer]
      exact hp.reaches_value ⟨fun heq => hnames (hrecognized.contentLength.mp heq),
        fun heq => htransfer (hrecognized.transferEncoding.mp heq),
        fun heq => he.upgrade (hrecognized.upgrade.mp heq)⟩ he.value he.space hn
  · have hstate := hrecognized.transferEncoding.mpr he.transferEncoding
    have hnames : ¬ Parser.Names (bytes "content-length") name := by
      intro hnames
      cases hstate.symm.trans (hrecognized.contentLength.mpr hnames)
    rw [told_chunked hnames he.transferEncoding]
    exact hp.reaches_chunked hstate he.chunked hn

/-- All lines. -/
theorem InHeader.reaches_lines {size : Nat} {es : List (Bytes × Bytes)}
    (h : InHeader method framing n .headerFieldStart parser) (hr : http.Ready)
    (hes : ∀ e ∈ es, IsField size e ∨ IsChunked e) (hsize : size < 2 ^ 63)
    (hn : n + (es.flatMap headerLine).length ≤ maxHeaderSize) :
    Reaches (parser, http) (es.flatMap headerLine) (es.foldl HTTP.enter http)
      (InHeader method (es.foldl (told size) framing) (n + (es.flatMap headerLine).length)
        .headerFieldStart) := by
  induction es generalizing parser http n framing with
  | nil => exact .nil h
  | cons e es ih =>
      rw [List.flatMap_cons, List.length_append] at hn ⊢
      refine (h.reaches_line hr (hes e List.mem_cons_self) hsize (by omega)).append fun p h => ?_
      rw [← Nat.add_assoc]
      exact ih h (.enter http e) (fun e he => hes e (List.mem_cons_of_mem _ he)) (by omega)

/-- The length that is known in the end. -/
theorem length_foldl_told (size : Nat) (es : List (Bytes × Bytes)) (framing : Framing) :
    (∃ e ∈ es, Parser.Names (bytes "content-length") e.1) ∧
        (es.foldl (told size) framing).length = size ∨
      (¬ ∃ e ∈ es, Parser.Names (bytes "content-length") e.1) ∧
        (es.foldl (told size) framing).length = framing.length := by
  induction es generalizing framing with
  | nil => exact .inr ⟨by simp, rfl⟩
  | cons e es ih =>
      rw [List.foldl_cons]
      rcases ih (told size framing e) with ⟨⟨e', he', hnames⟩, hlen⟩ | ⟨hnone, hlen⟩
      · exact .inl ⟨⟨e', List.mem_cons_of_mem _ he', hnames⟩, hlen⟩
      rw [hlen, told]
      by_cases he : Parser.Names (bytes "content-length") e.1
      · exact .inl ⟨⟨e, List.mem_cons_self, he⟩, if_pos he⟩
      · refine .inr ⟨?_, if_neg he⟩
        rintro ⟨e', hmem, hnames⟩
        rcases List.mem_cons.mp hmem with rfl | hmem
        · exact he hnames
        · exact hnone ⟨e', hmem, hnames⟩

/-- Whether the body comes in chunks. -/
theorem chunked_foldl_told (size : Nat) (es : List (Bytes × Bytes)) (framing : Framing) :
    (es.foldl (told size) framing).chunked = true ↔
      framing.chunked = true ∨ ∃ e ∈ es, Parser.Names (bytes "transfer-encoding") e.1 := by
  induction es generalizing framing with
  | nil => simp
  | cons e es ih =>
      rw [List.foldl_cons, ih, told, List.exists_mem_cons_iff, ← or_assoc]
      refine or_congr_left ?_
      by_cases he : Parser.Names (bytes "transfer-encoding") e.1
      · simp [he]
      · simp [he]

/-! ## The end of the header -/

/-- The object behind the header fields. -/
def headerRead (http : HTTP) : HTTP := { http.settled with headerDone := true }

/-- The object of a request that is complete. -/
def completed (method : HttpMethod) (http : HTTP) : HTTP :=
  { http with state := .done, method := some method, doneParsing := true }

theorem InHeader.carriageReturn (h : InHeader method framing n .headerFieldStart parser)
    (hn : n < maxHeaderSize) :
    Reaches (parser, http) [13] http (InHeader method framing (n + 1) .headersAlmostDone) := by
  refine .one _ (h.byte_eq rfl hn fun p hp hstate => ?_)
    (h.with .headersAlmostDone (n + 1) parser.index parser.headerState)
  rw [Parser.step, hstate, hp]
  rfl

/-- What the last byte of the header does. -/
theorem InHeader.byte_blank (h : InHeader method framing n .headersAlmostDone parser) (hr : http.Ready)
    (ht : http.httpType = .request) (hm : method ∈ sentMethods) (hn : n < maxHeaderSize) :
    ∃ p : Parser, InHeader method framing 0 .headersAlmostDone p ∧ byte (parser, http) 10 =
      Parser.settled HTTP.piece HTTP.callback HTTP.bodyPiece 10 p.beginBody .closed (headerRead http) := by
  have hne : method ≠ .connect := by
    rintro rfl
    revert hm
    decide
  have hup : (parser.flags.upgrade || (parser.method = .connect : Bool) || parser.upgraded) = false := by
    rw [h.upgrade, h.upgraded, h.method, decide_eq_false hne]
    rfl
  refine ⟨Parser.headersRead { parser with nread := n + 1 }, ⟨h.state, rfl, h.type, h.method,
    h.chunked, h.trailing, h.upgrade, h.skipbody, h.contentLength, hup⟩, ?_⟩
  refine h.byte_eq rfl hn fun p hp hstate => ?_
  rw [Parser.step, hstate, hp]
  dsimp only [Parser.headersAlmostDone]
  rw [if_neg (by decide), if_neg (by rw [h.trailing]; decide), Parser.settled,
    hr.callback_headersComplete ht]
  rfl

theorem callback_complete (hm : method ∈ sentMethods) (hp : parser.method = method)
    (ht : http.httpType = .request) (hs : http.state = .value) :
    http.callback parser.toHttpParser .messageComplete = some (0, completed method http) := by
  have hmem : ∀ m ∈ sentMethods,
      m ∈ [HttpMethod.get, .connect, .post, .head, .put, .delete, .move] := by decide
  rw [HTTP.callback_messageComplete ht (hp ▸ hmem _ hm), if_pos (.inl hs), hp]
  rfl

/-- A body follows. -/
theorem InHeader.reaches_body (h : InHeader method framing n .headersAlmostDone parser)
    (hr : http.Ready) (ht : http.httpType = .request) (hm : method ∈ sentMethods)
    (hn : n < maxHeaderSize) (hc : framing.chunked = false) (hlen : 0 < framing.length) :
    Reaches (parser, http) [10] (headerRead http) fun p =>
      p.state = .bodyIdentity ∧ p.contentLength = framing.length ∧ p.method = method := by
  obtain ⟨p, hp, heq⟩ := h.byte_blank hr ht hm hn
  refine .one (p.goto .bodyIdentity) (heq.trans ?_) ⟨rfl, hp.contentLength, hp.method⟩
  rw [Parser.beginBody, hp.upgraded, hp.skipbody, hp.chunked, hc, hp.contentLength, if_neg hlen.ne',
    if_pos hlen]
  rfl

/-- No body follows. -/
theorem InHeader.reaches_end (h : InHeader method framing n .headersAlmostDone parser) (hr : http.Ready)
    (ht : http.httpType = .request) (hm : method ∈ sentMethods) (hn : n < maxHeaderSize)
    (hs : http.settled.state = .value) (hc : framing.chunked = false)
    (hlen : framing.length = 0 ∨ framing.length = -1) :
    Reaches (parser, http) [10] (completed method (headerRead http)) fun _ => True := by
  obtain ⟨p, hp, heq⟩ := h.byte_blank hr ht hm hn
  have hcomplete : p.beginBody = p.complete := by
    rw [Parser.beginBody, hp.upgraded, hp.skipbody, hp.chunked, hc, hp.contentLength, hp.type]
    rcases hlen with hlen | hlen <;> rw [hlen] <;> rfl
  refine .one p.newMessage (heq.trans ?_) trivial
  have ht' : (headerRead http).httpType = .request := (HTTP.httpType_settled http).trans ht
  rw [hcomplete, Parser.complete, Parser.settled_callback2, callback_complete hm hp.method ht' hs]
  rfl

/-! ## The body -/

/-- The object once it has got `bs` of the body. -/
def withBody (http : HTTP) (bs : Bytes) : HTTP := { http with body := http.body ++ bs }

theorem withBody_withBody (http : HTTP) (bs bs' : Bytes) :
    withBody (withBody http bs) bs' = withBody http (bs ++ bs') := by
  rw [withBody, withBody, withBody, List.append_assoc]

/-- A body whose length is known, in front of its last byte. -/
theorem reaches_body {bs : Bytes} (hs : parser.state = .bodyIdentity)
    (hlen : parser.contentLength = (bs.length : Nat) + 1) :
    Reaches (parser, http) bs (withBody http bs) fun p =>
      p.state = .bodyIdentity ∧ p.contentLength = 1 ∧ p.method = parser.method := by
  have hrest : (parser.consume bs.length).contentLength = 1 := by
    dsimp only [Parser.consume]
    omega
  refine ⟨parser.consume bs.length, ?_, hs, hrest, rfl⟩
  cases hbs : bs with
  | nil =>
      have hsame : withBody http [] = http := by rw [withBody, List.append_nil]
      have hself : parser.consume 0 = parser := by simp [Parser.consume]
      rw [hsame, List.length_nil, hself]
      rfl
  | cons c bs' =>
      rw [← hbs]
      refine (Parser.foldlM_bodyIdentity HTTP.collects hs (hbs ▸ List.cons_ne_nil c bs')
        (by omega)).trans ?_
      exact if_neg (by rw [hrest]; decide)

/-- The last byte of a body. -/
theorem reaches_lastByte (hs : parser.state = .bodyIdentity) (hlen : parser.contentLength = 1)
    (hp : parser.method = method) (hm : method ∈ sentMethods) (ht : http.httpType = .request)
    (hstate : http.state = .value) :
    Reaches (parser, http) [ch] (completed method (withBody http [ch])) fun _ => True := by
  refine .one (parser.consume 1).newMessage ?_ trivial
  refine (Parser.byte_bodyIdentity hs (by omega)).trans ?_
  have hzero : (parser.consume 1).contentLength = 0 := by
    dsimp only [Parser.consume]
    omega
  have hcb : (withBody http [ch]).callback (parser.consume 1).toHttpParser .messageComplete = _ :=
    callback_complete hm hp ht hstate
  change Parser.afterBody HTTP.callback (parser.consume 1) (withBody http [ch]) = _
  rw [Parser.afterBody, if_pos hzero, hcb]
  rfl

end Header

end Wire

/-! ## The whole request -/

namespace SentRequest

variable {r : SentRequest}

/-- The first line and the header fields, without the blank line behind them. -/
def header (r : SentRequest) : Bytes := r.requestLine ++ r.headers.flatMap Wire.headerLine

/-- What is sent. -/
def text (r : SentRequest) : Bytes := r.header ++ bytes "\r\n" ++ r.body

/-- A request that the parser takes. -/
structure Sendable (r : SentRequest) : Prop where
  line : r.IsLine
  headers : r.headers ≠ []
  fields : ∀ e ∈ r.headers, Wire.IsField r.body.length e
  told : r.body ≠ [] → ∃ e ∈ r.headers, Parser.Names (bytes "content-length") e.1
  length : r.body.length < 2 ^ 63
  short : r.header.length + 2 ≤ maxHeaderSize

/-- The object that the request becomes. -/
def received (r : SentRequest) : HTTP where
  state := .done
  doneParsing := true
  headerDone := true
  url := r.url
  path := r.path
  query := r.query.getD []
  host := HTTP.hostOf [] r.headers
  field := none
  value := none
  headers := r.headers
  body := r.body
  statusStr := ""
  method := some r.method
  httpType := .request
  extraParsedBytes := 0

/-- The object behind the header fields of the request. -/
def collected (r : SentRequest) : HTTP := r.headers.foldl HTTP.enter (Wire.lineRead r)

theorem ready_lineRead (r : SentRequest) : (Wire.lineRead r).Ready := ⟨.inl rfl, rfl⟩

theorem settled_collected (r : SentRequest) : r.collected.settled =
    { Wire.lineRead r with
      state := if r.headers = [] then .header else .value
      host := HTTP.hostOf [] r.headers
      headers := r.headers } := r.ready_lineRead.settled_foldl r.headers

theorem doneParsing_collected (r : SentRequest) : r.collected.doneParsing = false := by
  have hsettled : r.collected.settled.doneParsing = r.collected.doneParsing := by
    rw [HTTP.settled]
    split <;> rfl
  rw [← hsettled, settled_collected]
  rfl

theorem httpType_collected (r : SentRequest) : r.collected.httpType = .request := by
  rw [← HTTP.httpType_settled, settled_collected]
  rfl

theorem state_settled_collected (hne : r.headers ≠ []) : r.collected.settled.state = .value := by
  rw [settled_collected, if_neg hne]

theorem doneParsing_headerRead (r : SentRequest) :
    (Wire.headerRead r.collected).doneParsing = false := by
  rw [Wire.headerRead, settled_collected]
  rfl

/-- The object of the request, from what is behind its header fields. -/
theorem completed_collected (hne : r.headers ≠ []) :
    Wire.completed r.method (Wire.withBody (Wire.headerRead r.collected) r.body) = r.received := by
  rw [Wire.headerRead, settled_collected, if_neg hne]
  rfl

end SentRequest

namespace Wire

variable {r : SentRequest} {reads : List Bytes}

theorem reaches_header (parser : Parser) {size : Nat} (hline : r.IsLine)
    (hfields : ∀ e ∈ r.headers, IsField size e ∨ IsChunked e) (hsize : size < 2 ^ 63)
    (hshort : r.header.length + 2 ≤ maxHeaderSize) :
    Reaches (parser.init .request, .new .request) (r.header ++ [13]) r.collected
      (InHeader r.method (r.headers.foldl (told size) ⟨-1, false⟩) (r.header.length + 1)
        .headersAlmostDone) := by
  rw [SentRequest.header, List.length_append] at hshort ⊢
  rw [List.append_assoc]
  refine (reaches_requestLine parser hline (by omega)).append fun parser h => ?_
  refine (h.inHeader.reaches_lines r.ready_lineRead hfields hsize (by omega)).append
    fun parser h => ?_
  exact h.carriageReturn (by omega)

/-- Reads with which a request is complete at their last byte. -/
theorem readRequest_of_reaches {init : Bytes} {http http' : HTTP} {Q : Parser → Prop}
    (parser : Parser) (ch : UInt8) (hne : [] ∉ reads) (hflat : reads.flatten = init ++ [ch])
    (hinit : Reaches (parser.init .request, .new .request) init http Q)
    (hwait : http.doneParsing = false)
    (hlast : ∀ parser, Q parser → Reaches (parser, http) [ch] http' fun _ => True)
    (hdone : http'.doneParsing = true) : ∃ parser', readRequest reads
      (parser.init .request, .new .request) = some (some (parser', http')) := by
  obtain ⟨parser₁, hinit, hQ⟩ := hinit
  obtain ⟨parser₂, hbyte, -⟩ := hlast parser₁ hQ
  have hbyte : byte (parser₁, http) ch = some (parser₂, http') := (bind_pure _).symm.trans hbyte
  exact ⟨parser₂, readsAs.readAll_of_last (.new parser) hne hflat hinit hwait hbyte hdone⟩

/-- The reads of a request complete it. -/
theorem readRequest_text (parser : Parser) (hr : r.Sendable) (hne : [] ∉ reads)
    (hreads : reads.flatten = r.text) : ∃ parser', readRequest reads
      (parser.init .request, .new .request) = some (some (parser', r.received)) := by
  have hready : r.collected.Ready := r.ready_lineRead.foldl r.headers
  have hshort := hr.short
  have hstate := r.state_settled_collected hr.headers
  have hcrlf : bytes "\r\n" = [13, 10] := by decide
  have hheader := reaches_header parser hr.line (fun e he => .inl (hr.fields e he)) hr.length hshort
  generalize hframing : r.headers.foldl (told r.body.length) ⟨-1, false⟩ = framing at hheader
  have hchunked : framing.chunked = false := by
    rw [← hframing, ← Bool.not_eq_true, chunked_foldl_told]
    rintro (hfalse | ⟨e, he, hnames⟩)
    · cases hfalse
    · exact (hr.fields e he).transferEncoding hnames
  have hlen := hframing ▸ length_foldl_told r.body.length r.headers ⟨-1, false⟩
  rw [← SentRequest.completed_collected hr.headers]
  rcases List.eq_nil_or_concat r.body with hnil | ⟨bs, ch, hbody⟩
  · have hsame : withBody (headerRead r.collected) r.body = headerRead r.collected := by
      rw [hnil, withBody, List.append_nil]
    rw [hsame]
    refine readRequest_of_reaches parser 10 hne ?_ hheader r.doneParsing_collected
      (fun parser h => ?_) rfl
    · rw [hreads, SentRequest.text, hnil, hcrlf, List.append_nil, List.append_assoc]
      rfl
    · refine h.reaches_end hready r.httpType_collected hr.line.method (by omega) hstate hchunked ?_
      rw [hnil] at hlen
      rcases hlen with ⟨-, hlen⟩ | ⟨-, hlen⟩
      · exact .inl hlen
      · exact .inr hlen
  · have hne' : r.body ≠ [] := by
      rw [hbody, List.concat_eq_append]
      exact List.concat_ne_nil _ _
    have hsize : framing.length = ((bs.length : Nat) : Int) + 1 := by
      rcases hlen with ⟨-, hlen⟩ | ⟨hnone, -⟩
      · rw [hlen, hbody, List.length_concat]
        rfl
      · exact absurd (hr.told hne') hnone
    have hfront : Reaches (parser.init .request, .new .request) (r.header ++ [13] ++ ([10] ++ bs))
        (withBody (headerRead r.collected) bs) fun p =>
          p.state = .bodyIdentity ∧ p.contentLength = 1 ∧ p.method = r.method := by
      refine hheader.append fun p h => ?_
      refine (h.reaches_body hready r.httpType_collected hr.line.method (by omega) hchunked
        (by omega)).append fun p h => ?_
      obtain ⟨hs, hlen, hmethod⟩ := h
      rw [← hmethod]
      exact Wire.reaches_body hs (hlen.trans hsize)
    rw [hbody, List.concat_eq_append, ← withBody_withBody]
    refine readRequest_of_reaches parser ch hne ?_ hfront r.doneParsing_headerRead
      (fun parser h => ?_) rfl
    · rw [hreads, SentRequest.text, hbody, hcrlf, List.concat_eq_append]
      simp
    · obtain ⟨hs, hone, hmethod⟩ := h
      refine reaches_lastByte hs hone hmethod hr.line.method ?_ hstate
      exact (HTTP.httpType_settled _).trans r.httpType_collected

/-- A request is received as it was sent, however it is cut into reads. -/
theorem receive_text (parser : Parser) (hr : r.Sendable) (hne : [] ∉ reads)
    (hreads : reads.flatten = r.text) : receive parser reads = some (some r.received) := by
  obtain ⟨parser', hread⟩ := readRequest_text parser hr hne hreads
  rw [receive, hread]
  rfl

/-- The request of which `sample` is the text. -/
def sampleRequest : SentRequest where
  method := .put
  path := bytes "/a"
  query := none
  headers := [(bytes "Content-Length", decimal 1)]
  body := [120]

theorem sendable_sampleRequest : sampleRequest.Sendable where
  line := ⟨by decide, by decide, List.all_iff_forall_prop.mp
    (show ((bytes "/a").all fun c => decide (normalUrlChar c = true)) = true by decide), nofun⟩
  headers := by decide
  fields e he := by
    obtain rfl : e = (bytes "Content-Length", decimal 1) := List.mem_singleton.mp he
    exact
      { ne_nil := show bytes "Content-Length" ≠ [] by decide
        token := List.all_iff_forall_prop.mp
          (show ((bytes "Content-Length").all fun c => decide (token c ≠ 0)) = true by decide)
        value := List.all_iff_forall_prop.mp
          (show ((decimal 1).all fun c => decide (c ≠ 13 ∧ c ≠ 10)) = true by decide)
        space := show (decimal 1).head? ≠ some 32 by decide
        contentLength := fun _ => rfl
        transferEncoding := Parser.not_names (show ¬ _ <+: (bytes "Content-Length").map token by decide)
        upgrade := Parser.not_names (show ¬ _ <+: (bytes "Content-Length").map token by decide) }
  told _ := ⟨_, List.mem_cons_self, .of_eq
    (show (bytes "Content-Length").map token = bytes "content-length" by decide)⟩
  length := by decide
  short := by decide +kernel

theorem receive_sampleRequest :
    receive memory [sample.take 9, sample.drop 9] = some (some sampleRequest.received) :=
  receive_text memory sendable_sampleRequest (by decide +kernel) (by decide +kernel)

end Wire

end Gunrock
