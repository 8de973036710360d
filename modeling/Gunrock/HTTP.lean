import Gunrock.Ufs

/-!
# Reading a request

`HTTP.h` and `HTTP.cpp`: the object that collects a message while `http_parser` runs over
its bytes.  The parser itself is not here; what it hands to the object is a sequence of
callbacks, and `Message.events` is the sequence for a complete message.

An assertion that fails is the end of the server.  That is what becomes of a request without
header fields: no callback takes the object out of the state `HEADER`, and the last one
does not expect it there.  Any other request is received as it was sent, however it was cut
into reads and pieces (`HTTP.readRequest_same`).
-/

namespace Gunrock

/-! ## The object -/

/-- `enum http_method` -/
inductive HttpMethod where
  | delete | get | head | post | put | connect | options | trace
  | copy | lock | mkcol | move | propfind | proppatch | unlock
  | report | mkactivity | checkout | merge
deriving DecidableEq, Repr

/-- `enum http_parser_type` -/
inductive HttpParserType where
  | request | response | both
deriving DecidableEq, Repr

/-- What the callbacks read of the parser. -/
structure HttpParser where
  httpMajor : Nat
  httpMinor : Nat
  statusCode : Nat
  method : HttpMethod

inductive HttpState where
  | init | header | field | value | body | done
deriving DecidableEq, Repr

/-- `HTTP`; a pointer to a string is an optional string. -/
@[ext] structure HTTP where
  state : HttpState
  doneParsing : Bool
  headerDone : Bool
  url : Bytes
  path : Bytes
  query : Bytes
  host : Bytes
  field : Option Bytes
  value : Option Bytes
  headers : List (Bytes × Bytes)
  body : Bytes
  statusStr : String
  /-- Not set before the message is complete. -/
  method : Option HttpMethod
  httpType : HttpParserType
  extraParsedBytes : Int
deriving DecidableEq, Repr

namespace HTTP

def new (httpType : HttpParserType) : HTTP where
  state := .init
  doneParsing := false
  headerDone := false
  url := []
  path := []
  query := []
  host := []
  field := none
  value := none
  headers := []
  body := []
  statusStr := ""
  method := none
  httpType := httpType
  extraParsedBytes := 0

/-- `"Host"` -/
def hostField : Bytes := [72, 111, 115, 116]

def addHeaderField (http : HTTP) : Option HTTP :=
  match http.field, http.value with
  | some field, some value => some
    { http with
      host := if field = hostField then value else http.host
      headers := http.headers ++ [(field, value)]
      field := none
      value := none }
  | none, none => some http
  | _, _ => none

def newHeaderField (http : HTTP) (str : Bytes) : Option HTTP := do
  let http ← http.addHeaderField
  return { http with field := some str, value := some [] }

def appendHeaderField (http : HTTP) (str : Bytes) : Option HTTP := do
  let field ← http.field
  return { http with field := some (field ++ str) }

/-- The pointer is not checked; it is a crash as well if it is null. -/
def appendHeaderValue (http : HTTP) (str : Bytes) : Option HTTP := do
  let value ← http.value
  return { http with value := some (value ++ str) }

def messageComplete (http : HTTP) (method : HttpMethod) : Option HTTP :=
  if http.httpType = .request then
    if method ∈ [.get, .connect, .post, .head, .put, .delete, .move] then
      some { http with method := some method, doneParsing := true }
    else none
  else some { http with doneParsing := true }

/-! ## Callbacks -/

def messageBeginCb (http : HTTP) : Option HTTP :=
  if http.state = .init then some { http with state := .header } else none

def headerFieldCb (http : HTTP) (str : Bytes) : Option HTTP :=
  if http.state = .field then http.appendHeaderField str
  else if http.state = .value ∨ http.state = .header then do
    return { ← http.newHeaderField str with state := .field }
  else none

def headerValueCb (http : HTTP) (str : Bytes) : Option HTTP :=
  let http := if http.state = .field then { http with state := .value } else http
  if http.state = .value then http.appendHeaderValue str else none

/-- The words for a status that `headers_complete_cb` knows. -/
def reason : Nat → Option String
  | 200 => some "OK"
  | 204 => some "No Content"
  | 301 => some "Moved Permanently"
  | 302 => some "Moved Temporarily"
  | 304 => some "Not Modified"
  | 403 => some "Forbidden"
  | 404 => some "Not Found"
  | 408 => some "Request Timeout"
  | 500 => some "Internal Server Error"
  | 503 => some "Service Unavailable"
  | _ => none

/-- The first component is the return value. -/
def headersCompleteCb (parser : HttpParser) (http : HTTP) : Option (Int × HTTP) := do
  let http ← http.addHeaderField
  let http := { http with headerDone := true }
  if http.httpType = .response then
    let words ← reason parser.statusCode
    let statusStr := "HTTP/" ++ toString parser.httpMajor ++ "." ++ toString parser.httpMinor ++
      " " ++ toString parser.statusCode ++ " " ++ words
    return (-1, { http with statusStr := statusStr, extraParsedBytes := 1 })
  else
    return (0, http)

def messageCompleteCb (parser : HttpParser) (http : HTTP) : Option HTTP :=
  if http.state = .value ∨ http.state = .body then
    { http with state := .done }.messageComplete parser.method
  else none

end HTTP

/-- The callbacks, with the bytes that they are given. -/
inductive HttpEvent where
  | messageBegin
  | url (str : Bytes)
  | path (str : Bytes)
  | queryString (str : Bytes)
  | fragment (str : Bytes)
  | headerField (str : Bytes)
  | headerValue (str : Bytes)
  | headersComplete
  | body (str : Bytes)
  | messageComplete
deriving DecidableEq, Repr

namespace HTTP

/-- One callback; the answer is its return value and the object, unless it crashes. -/
def callback (parser : HttpParser) (http : HTTP) : HttpEvent → Option (Int × HTTP)
  | .messageBegin => http.messageBeginCb.map (0, ·)
  | .url str => some (0, { http with url := http.url ++ str })
  | .path str => some (0, { http with path := http.path ++ str })
  | .queryString str => some (0, { http with query := http.query ++ str })
  | .fragment _ => none
  | .headerField str => (http.headerFieldCb str).map (0, ·)
  | .headerValue str => (http.headerValueCb str).map (0, ·)
  | .headersComplete => http.headersCompleteCb parser
  | .body str => some (0, { http with body := http.body ++ str })
  | .messageComplete => (http.messageCompleteCb parser).map (0, ·)

/-- The callbacks of a run of the parser, which stops when one of them does not return `0`. -/
def callbacks (parser : HttpParser) : List HttpEvent → HTTP → Option HTTP
  | [], http => some http
  | e :: es, http => do
    let (ret, http) ← http.callback parser e
    if ret = 0 then callbacks parser es http else return http

end HTTP

/-- `normal_url_char`, the bytes that the parser lets through in a path. -/
def normalUrlChar (c : UInt8) : Bool := 33 ≤ c && c ≤ 126 && c != 35 && c != 63

/-! ## Complete messages -/

/-- A piece of the request line. -/
inductive UrlPiece where
  | url (str : Bytes)
  | path (str : Bytes)
  | query (str : Bytes)

/-- A header field: its name in one or more pieces, and its value in one or more pieces. -/
structure HeaderPieces where
  field : Bytes
  fields : List Bytes
  value : Bytes
  values : List Bytes

/-- A complete message, in the pieces in which the parser happens to deliver it. -/
structure Message where
  urlPieces : List UrlPiece
  headers : List HeaderPieces
  bodyPieces : List Bytes

def UrlPiece.event : UrlPiece → HttpEvent
  | url str => .url str
  | path str => .path str
  | query str => .queryString str

namespace HeaderPieces

def events (h : HeaderPieces) : List HttpEvent :=
  (h.field :: h.fields).map .headerField ++ (h.value :: h.values).map .headerValue

/-- The field and its value, put together. -/
def text (h : HeaderPieces) : Bytes × Bytes :=
  ((h.field :: h.fields).flatten, (h.value :: h.values).flatten)

end HeaderPieces

def Message.events (m : Message) : List HttpEvent :=
  .messageBegin :: (m.urlPieces.map UrlPiece.event ++ m.headers.flatMap HeaderPieces.events ++
    .headersComplete :: (m.bodyPieces.map .body ++ [.messageComplete]))

namespace Message

/-- Consecutive pieces put together. -/
def url (m : Message) : Bytes := m.urlPieces.flatMap fun | .url str => str | _ => []
def path (m : Message) : Bytes := m.urlPieces.flatMap fun | .path str => str | _ => []
def query (m : Message) : Bytes := m.urlPieces.flatMap fun | .query str => str | _ => []
def body (m : Message) : Bytes := m.bodyPieces.flatten

/-- The header fields, in order. -/
def fields (m : Message) : List (Bytes × Bytes) := m.headers.map HeaderPieces.text

end Message

namespace HTTP

/-! ## What the callbacks do with a message -/

variable {parser : HttpParser} {http http' : HTTP} {e : HttpEvent} {es : List HttpEvent}

theorem callbacks_cons (h : http.callback parser e = some (0, http')) :
    callbacks parser (e :: es) http = callbacks parser es http' := by
  simp [callbacks, h]

/-- The object after the request line. -/
def requestLine (http : HTTP) (ps : List UrlPiece) : HTTP :=
  { http with
    url := http.url ++ ps.flatMap fun | .url str => str | _ => []
    path := http.path ++ ps.flatMap fun | .path str => str | _ => []
    query := http.query ++ ps.flatMap fun | .query str => str | _ => [] }

theorem callbacks_urlPieces (ps : List UrlPiece) :
    callbacks parser (ps.map UrlPiece.event ++ es) http =
      callbacks parser es (http.requestLine ps) := by
  induction ps generalizing http with
  | nil => simp [requestLine]
  | cons p ps ih =>
      rw [List.map_cons, List.cons_append]
      cases p with
      | url str =>
          rw [UrlPiece.event, callbacks_cons rfl, ih]
          simp [requestLine]
      | path str =>
          rw [UrlPiece.event, callbacks_cons rfl, ih]
          simp [requestLine]
      | query str =>
          rw [UrlPiece.event, callbacks_cons rfl, ih]
          simp [requestLine]

theorem callbacks_body (bs : List Bytes) : callbacks parser (bs.map .body ++ es) http =
    callbacks parser es { http with body := http.body ++ bs.flatten } := by
  induction bs generalizing http with
  | nil => simp
  | cons b bs ih =>
      rw [List.map_cons, List.cons_append, callbacks_cons rfl, ih]
      simp

theorem callbacks_headerFields {f : Bytes} (hs : http.state = .field) (hf : http.field = some f)
    (fs : List Bytes) : callbacks parser (fs.map .headerField ++ es) http =
      callbacks parser es { http with field := some (f ++ fs.flatten) } := by
  induction fs generalizing http f with
  | nil => simp [← hf]
  | cons g fs ih =>
      have hcb : http.callback parser (.headerField g) =
          some (0, { http with field := some (f ++ g) }) := by
        simp [callback, headerFieldCb, appendHeaderField, hs, hf]
      rw [List.map_cons, List.cons_append, callbacks_cons hcb]
      refine (ih ?_ rfl).trans ?_
      · exact hs
      · simp

theorem callbacks_headerValues {v : Bytes} (hs : http.state = .value) (hv : http.value = some v)
    (vs : List Bytes) : callbacks parser (vs.map .headerValue ++ es) http =
      callbacks parser es { http with value := some (v ++ vs.flatten) } := by
  induction vs generalizing http v with
  | nil => simp [← hv]
  | cons w vs ih =>
      have hcb : http.callback parser (.headerValue w) =
          some (0, { http with value := some (v ++ w) }) := by
        simp [callback, headerValueCb, appendHeaderValue, hs, hv]
      rw [List.map_cons, List.cons_append, callbacks_cons hcb]
      refine (ih ?_ rfl).trans ?_
      · exact hs
      · simp

/-- The object with the header field that it is reading entered in its list. -/
def settled (http : HTTP) : HTTP :=
  match http.field, http.value with
  | some field, some value =>
    { http with
      host := if field = hostField then value else http.host
      headers := http.headers ++ [(field, value)]
      field := none
      value := none }
  | _, _ => http

/-- The object once it has read another header field, which is entered in the list with the
next one. -/
def enter (http : HTTP) (h : Bytes × Bytes) : HTTP :=
  { http.settled with state := .value, field := some h.1, value := some h.2 }

/-- Between two header fields. -/
structure Ready (http : HTTP) : Prop where
  state : http.state = .header ∨ http.state = .value
  pending : http.field.isSome = http.value.isSome

theorem Ready.addHeaderField (h : http.Ready) : http.addHeaderField = some http.settled := by
  have hp := h.pending
  cases hf : http.field <;> cases hv : http.value <;>
    simp_all [HTTP.addHeaderField, settled]

theorem Ready.enter (http : HTTP) (h : Bytes × Bytes) : (http.enter h).Ready := ⟨.inr rfl, rfl⟩

theorem Ready.callbacks_header (hr : http.Ready) (h : HeaderPieces) :
    callbacks parser (h.events ++ es) http = callbacks parser es (http.enter h.text) := by
  have hne : http.state ≠ .field := by
    rcases hr.state with hs | hs <;> simp [hs]
  have hfield : http.callback parser (.headerField h.field) = some (0,
      { http.settled with state := .field, field := some h.field, value := some [] }) := by
    simp [callback, headerFieldCb, newHeaderField, hne, hr.state.symm, hr.addHeaderField]
  have hvalue : ∀ f : Bytes, callback parser
      { http.settled with state := .field, field := some f, value := some [] }
      (.headerValue h.value) = some (0,
      { http.settled with state := .value, field := some f, value := some h.value }) := by
    intro f
    simp [callback, headerValueCb, appendHeaderValue]
  rw [HeaderPieces.events, List.map_cons, List.map_cons, List.append_assoc, List.cons_append,
    List.cons_append, callbacks_cons hfield, callbacks_headerFields rfl rfl,
    callbacks_cons (hvalue _), callbacks_headerValues rfl rfl]
  simp [HTTP.enter, HeaderPieces.text]

/-- All header fields of a message. -/
theorem Ready.callbacks_headers (hr : http.Ready) (hs : List HeaderPieces) :
    callbacks parser (hs.flatMap HeaderPieces.events ++ es) http =
      callbacks parser es ((hs.map HeaderPieces.text).foldl HTTP.enter http) := by
  induction hs generalizing http with
  | nil => rfl
  | cons h hs ih =>
      rw [List.flatMap_cons, List.append_assoc, hr.callbacks_header, ih (.enter _ _)]
      rfl

/-- The host, when it was `host` before the header fields `hs`. -/
def hostOf (host : Bytes) (hs : List (Bytes × Bytes)) : Bytes :=
  hs.foldl (fun host h => if h.1 = hostField then h.2 else host) host

theorem Ready.settled_field (hr : http.Ready) :
    http.settled.field = none ∧ http.settled.value = none := by
  have hp := hr.pending
  cases hf : http.field <;> cases hv : http.value <;> simp_all [settled]

theorem settled_enter (http : HTTP) (h : Bytes × Bytes) : (http.enter h).settled =
    { http.settled with
      state := .value
      host := if h.1 = hostField then h.2 else http.settled.host
      headers := http.settled.headers ++ [h]
      field := none
      value := none } := rfl

theorem Ready.settled_foldl (hr : http.Ready) (hs : List (Bytes × Bytes)) :
    (hs.foldl HTTP.enter http).settled =
      { http.settled with
        state := if hs = [] then http.settled.state else .value
        host := hostOf http.settled.host hs
        headers := http.settled.headers ++ hs } := by
  induction hs generalizing http with
  | nil => simp [hostOf]
  | cons h hs ih =>
      obtain ⟨hf, hv⟩ := hr.settled_field
      rw [List.foldl_cons, ih (.enter http h), settled_enter]
      simp [hostOf, hf, hv]

theorem Ready.foldl (hr : http.Ready) (hs : List (Bytes × Bytes)) :
    (hs.foldl HTTP.enter http).Ready := by
  induction hs generalizing http with
  | nil => exact hr
  | cons h hs ih => exact ih (.enter http h)

end HTTP

/-- The object that a complete request makes of a new one. -/
def Message.received (m : Message) (method : HttpMethod) : HTTP where
  state := .done
  doneParsing := true
  headerDone := true
  url := m.url
  path := m.path
  query := m.query
  host := HTTP.hostOf [] m.fields
  field := none
  value := none
  headers := m.fields
  body := m.body
  statusStr := ""
  method := some method
  httpType := .request
  extraParsedBytes := 0

namespace HTTP

variable {parser : HttpParser} {http : HTTP}

theorem httpType_settled (http : HTTP) : http.settled.httpType = http.httpType := by
  rw [settled]
  split <;> rfl

theorem Ready.callback_headersComplete (hr : http.Ready) (ht : http.httpType = .request) :
    http.callback parser .headersComplete =
      some (0, { http.settled with headerDone := true }) := by
  simp [callback, headersCompleteCb, hr.addHeaderField, httpType_settled, ht]

theorem callback_messageComplete (ht : http.httpType = .request)
    (hm : parser.method ∈ [.get, .connect, .post, .head, .put, .delete, .move]) :
    http.callback parser .messageComplete =
      if http.state = .value ∨ http.state = .body then
        some (0, { http with
          state := .done
          method := some parser.method
          doneParsing := true })
      else none := by
  simp only [callback, messageCompleteCb]
  split
  · simp [messageComplete, ht, hm]
  · rfl

/-- The object before the last callback of a complete request. -/
theorem callbacks_collected (m : Message) (method : HttpMethod) :
    callbacks parser m.events (new .request) = callbacks parser [.messageComplete]
      { m.received method with
        state := if m.headers = [] then .header else .value
        doneParsing := false
        method := none } := by
  have hbegin : (new .request).callback parser .messageBegin =
      some (0, { new .request with state := .header }) := rfl
  -- `o` is the object between the request line and the header fields
  obtain ⟨o, ho⟩ : ∃ o, o = requestLine { new .request with state := .header } m.urlPieces :=
    ⟨_, rfl⟩
  have hready : o.Ready := by
    subst ho
    exact ⟨.inl rfl, rfl⟩
  have hfold := hready.settled_foldl m.fields
  have htype : (m.fields.foldl HTTP.enter o).httpType = .request := by
    rw [← httpType_settled, hfold, ho]
    rfl
  have hcomplete : callback parser (m.fields.foldl HTTP.enter o) .headersComplete = _ :=
    (hready.foldl m.fields).callback_headersComplete htype
  rw [Message.events, callbacks_cons hbegin, List.append_assoc, callbacks_urlPieces, ← ho,
    hready.callbacks_headers, ← Message.fields, callbacks_cons hcomplete, callbacks_body, hfold]
  congr 1
  simp [Message.fields, Message.received, Message.url, Message.path, Message.query,
    Message.body, ho, settled, requestLine, new]

/-- A complete request is received as it was sent, unless it has no header field. -/
theorem callbacks_events
    (hm : parser.method ∈ [.get, .connect, .post, .head, .put, .delete, .move]) (m : Message) :
    callbacks parser m.events (new .request) =
      if m.headers = [] then none else some (m.received parser.method) := by
  rw [callbacks_collected m parser.method, callbacks, callback_messageComplete rfl hm]
  by_cases hnil : m.headers = []
  · simp [hnil]
  · simp [hnil, callbacks, Message.received]

/-! ## Requests that kill the server -/

def isDone (http : HTTP) : Bool := http.doneParsing

def getHeaders (http : HTTP) : List (Bytes × Bytes) := http.headers

/-- No assertion fails on the way, and then the message is done and its header fields are
there. -/
def Receives (parser : HttpParser) (m : Message) : Prop :=
  ∃ http, callbacks parser m.events (new .request) = some http ∧ http.state = .done ∧
    http.isDone = true ∧ http.getHeaders = m.fields

/-- A request gets through just when it has a header field. -/
theorem receives_iff (hm : parser.method ∈ [.get, .head, .post, .put, .delete, .move])
    (m : Message) : Receives parser m ↔ m.headers ≠ [] := by
  have hm' : parser.method ∈ [.get, .connect, .post, .head, .put, .delete, .move] := by
    simp only [List.mem_cons] at hm ⊢
    tauto
  rw [Receives, callbacks_events hm']
  by_cases hnil : m.headers = []
  · simp [hnil]
  · rw [if_neg hnil]
    exact iff_of_true ⟨_, rfl, rfl, rfl, rfl⟩ hnil

/-- `GET / HTTP/1.1` with a header field `Host: a` in three pieces. -/
theorem receives_host : Receives ⟨1, 1, 0, .get⟩
    ⟨[.url [47], .path [47]], [⟨[72, 111], [[115, 116]], [97], []⟩], []⟩ :=
  (receives_iff (by decide) _).mpr (by decide)

/-- `GET / HTTP/1.0` without header fields: the last callback fails its assertion. -/
theorem not_receives_bare : ¬ Receives ⟨1, 0, 0, .get⟩ ⟨[.url [47], .path [47]], [], []⟩ := by
  have hcrash : callbacks ⟨1, 0, 0, .get⟩
      (Message.events ⟨[.url [47], .path [47]], [], []⟩) (new .request) = none := by decide
  rintro ⟨http, hrun, -⟩
  rw [hcrash] at hrun
  cases hrun

/-! ## Requests that arrive in several reads -/

/-- `addData`, on bytes for which the parser makes the callbacks `es`; it must not be called once
the message is done. -/
def addData (parser : HttpParser) (es : List HttpEvent) (http : HTTP) : Option HTTP :=
  if http.doneParsing then none else callbacks parser es http

/-- `HTTPRequest::readRequest`, with the callbacks that each read leads to.  The parser takes all
bytes of a read. -/
def readRequest (parser : HttpParser) : List (List HttpEvent) → HTTP → Option HTTP
  | [], http => some http
  | es :: reads, http =>
    if http.isDone then some http
    else do readRequest parser reads (← http.addData parser es)

end HTTP

/-- Two messages are the same when their pieces are put together. -/
structure Message.Same (m m' : Message) : Prop where
  url : m.url = m'.url
  path : m.path = m'.path
  query : m.query = m'.query
  fields : m.fields = m'.fields
  body : m.body = m'.body

/-- There is a last callback, which completes the message. -/
theorem Message.events_eq_concat (m : Message) :
    ∃ es, m.events = es ++ [.messageComplete] ∧ HttpEvent.messageComplete ∉ es := by
  refine ⟨.messageBegin :: (m.urlPieces.map UrlPiece.event ++
    m.headers.flatMap HeaderPieces.events ++ .headersComplete :: m.bodyPieces.map .body),
    by simp [Message.events], ?_⟩
  simp only [List.mem_cons, List.mem_append, List.mem_map, List.mem_flatMap,
    HeaderPieces.events, reduceCtorEq, and_false, exists_false, or_self, false_or, or_false]
  rintro ⟨p, -, hp⟩
  cases p <;> cases hp

namespace HTTP

variable {parser : HttpParser} {http http' : HTTP} {e : HttpEvent} {es : List HttpEvent}
  {reads reads' : List (List HttpEvent)} {ret : Int} {str : Bytes}

theorem httpType_addHeaderField (h : http.addHeaderField = some http') :
    http'.httpType = http.httpType ∧ http'.doneParsing = http.doneParsing := by
  rw [addHeaderField] at h
  split at h <;> cases h <;> exact ⟨rfl, rfl⟩

theorem httpType_headerFieldCb (h : http.headerFieldCb str = some http') :
    http'.httpType = http.httpType ∧ http'.doneParsing = http.doneParsing := by
  rw [headerFieldCb] at h
  split at h
  · rw [appendHeaderField] at h
    cases hf : http.field with
    | none => simp [hf] at h
    | some field =>
        obtain rfl : { http with field := some (field ++ str) } = http' := by simpa [hf] using h
        exact ⟨rfl, rfl⟩
  · split at h
    · rw [newHeaderField] at h
      cases ha : http.addHeaderField with
      | none => simp [ha] at h
      | some http₁ =>
          have hkeeps := httpType_addHeaderField ha
          obtain rfl : { http₁ with state := .field, field := some str, value := some [] } =
              http' := by simpa [ha] using h
          exact hkeeps
    · cases h

theorem httpType_headerValueCb (h : http.headerValueCb str = some http') :
    http'.httpType = http.httpType ∧ http'.doneParsing = http.doneParsing := by
  have hkeeps : ∀ http₁ : HTTP, http₁.appendHeaderValue str = some http' →
      http'.httpType = http₁.httpType ∧ http'.doneParsing = http₁.doneParsing := by
    intro http₁ h₁
    rw [appendHeaderValue] at h₁
    cases hv : http₁.value with
    | none => simp [hv] at h₁
    | some value =>
        obtain rfl : { http₁ with value := some (value ++ str) } = http' := by
          simpa [hv] using h₁
        exact ⟨rfl, rfl⟩
  rw [headerValueCb] at h
  split at h
  · exact hkeeps { http with state := .value } (by simpa using h)
  · split at h
    · exact hkeeps http h
    · cases h

/-- While a request is read no callback stops the parser, and only the last one ends the
message. -/
theorem callback_request (ht : http.httpType = .request)
    (h : http.callback parser e = some (ret, http')) :
    ret = 0 ∧ http'.httpType = .request ∧
      (e ≠ .messageComplete → http'.doneParsing = http.doneParsing) := by
  have hmap : ∀ o : Option HTTP, (∀ http₁, o = some http₁ → http₁.httpType = http.httpType ∧
      http₁.doneParsing = http.doneParsing) → o.map (fun http₁ => ((0 : Int), http₁)) =
        some (ret, http') → ret = 0 ∧ http'.httpType = .request ∧
          (e ≠ .messageComplete → http'.doneParsing = http.doneParsing) := by
    intro o hkeeps ho
    obtain ⟨http₁, hsome, hout⟩ := Option.map_eq_some_iff.mp ho
    cases hout
    exact ⟨rfl, (hkeeps _ hsome).1.trans ht, fun _ => (hkeeps _ hsome).2⟩
  cases e with
  | messageBegin =>
      refine hmap _ (fun http₁ h₁ => ?_) h
      rw [messageBeginCb] at h₁
      split at h₁ <;> cases h₁
      exact ⟨rfl, rfl⟩
  | url str | path str | queryString str | body str =>
      cases h
      exact ⟨rfl, ht, fun _ => rfl⟩
  | fragment str => cases h
  | headerField str => exact hmap _ (fun _ => httpType_headerFieldCb) h
  | headerValue str => exact hmap _ (fun _ => httpType_headerValueCb) h
  | headersComplete =>
      rw [callback, headersCompleteCb] at h
      cases ha : http.addHeaderField with
      | none => simp [ha] at h
      | some http₁ =>
          obtain ⟨htype, hdone⟩ := httpType_addHeaderField ha
          have hne : http₁.httpType ≠ .response := by
            rw [htype, ht]
            decide
          obtain ⟨rfl, rfl⟩ : 0 = ret ∧ { http₁ with headerDone := true } = http' := by
            simpa [ha, hne] using h
          exact ⟨rfl, htype.trans ht, fun _ => hdone⟩
  | messageComplete =>
      obtain ⟨http₁, hsome, hout⟩ := Option.map_eq_some_iff.mp h
      cases hout
      refine ⟨rfl, ?_, fun hne => absurd rfl hne⟩
      rw [messageCompleteCb] at hsome
      split at hsome
      · rw [messageComplete, if_pos ht] at hsome
        split at hsome <;> cases hsome
        exact ht
      · cases hsome

theorem callbacks_append (ht : http.httpType = .request) (es' : List HttpEvent) :
    callbacks parser (es ++ es') http = (callbacks parser es http).bind (callbacks parser es') := by
  induction es generalizing http with
  | nil => rfl
  | cons e es ih =>
      rw [List.cons_append, callbacks, callbacks]
      cases hcb : http.callback parser e with
      | none => rfl
      | some out =>
          obtain ⟨ret, http'⟩ := out
          obtain ⟨rfl, ht', -⟩ := callback_request ht hcb
          exact ih ht'

/-- Before the last callback the message is not done. -/
theorem callbacks_request (ht : http.httpType = .request) (hes : HttpEvent.messageComplete ∉ es)
    (h : callbacks parser es http = some http') :
    http'.httpType = .request ∧ http'.doneParsing = http.doneParsing := by
  induction es generalizing http with
  | nil =>
      cases h
      exact ⟨ht, rfl⟩
  | cons e es ih =>
      rw [List.mem_cons, not_or] at hes
      rw [callbacks] at h
      cases hcb : http.callback parser e with
      | none => simp [hcb] at h
      | some out =>
          obtain ⟨ret, http₁⟩ := out
          obtain ⟨rfl, ht₁, hdone⟩ := callback_request ht hcb
          have hrest : callbacks parser es http₁ = some http' := by simpa [hcb] using h
          obtain ⟨ht', hdone'⟩ := ih ht₁ hes.2 hrest
          exact ⟨ht', hdone'.trans (hdone fun he => hes.1 he.symm)⟩

/-- Reads without a callback. -/
theorem readRequest_nil (h : reads.flatten = []) : readRequest parser reads http = some http := by
  induction reads with
  | nil => rfl
  | cons es reads ih =>
      obtain ⟨rfl, hrest⟩ := List.append_eq_nil_iff.mp (List.flatten_cons ▸ h)
      rw [readRequest]
      split
      · rfl
      · rename_i hdone
        simp only [isDone] at hdone
        rw [addData, if_neg hdone]
        exact ih hrest

/-- Where the reads are cut does not matter. -/
theorem readRequest_eq (ht : http.httpType = .request) (hdone : http.doneParsing = false)
    (hes : HttpEvent.messageComplete ∉ es) (h : reads.flatten = es ++ [.messageComplete]) :
    readRequest parser reads http = callbacks parser (es ++ [.messageComplete]) http := by
  induction reads generalizing http es with
  | nil => cases es <;> cases h
  | cons r reads ih =>
      rw [List.flatten_cons] at h
      rw [readRequest, if_neg (by simp [isDone, hdone]), addData, if_neg (by simp [hdone])]
      rcases List.append_eq_append_iff.mp h with ⟨rest, rfl, hrest⟩ | ⟨rest, rfl, hrest⟩
      · -- the message is not complete with this read
        rw [List.append_assoc, callbacks_append ht]
        rw [List.mem_append, not_or] at hes
        cases hr : callbacks parser r http with
        | none => rfl
        | some http₁ =>
            obtain ⟨ht₁, hdone₁⟩ := callbacks_request ht hes.1 hr
            exact ih ht₁ (hdone₁.trans hdone) hes.2 hrest
      · cases rest with
        | nil =>
            -- only the last callback is left
            rw [List.append_nil, callbacks_append ht]
            cases hr : callbacks parser es http with
            | none => rfl
            | some http₁ =>
                obtain ⟨ht₁, hdone₁⟩ := callbacks_request ht hes hr
                have hlast : reads.flatten = [] ++ [.messageComplete] := by simpa using hrest.symm
                exact ih ht₁ (hdone₁.trans hdone) List.not_mem_nil hlast
        | cons e rest =>
            obtain ⟨rfl, hnil⟩ := List.cons_eq_cons.mp hrest
            obtain ⟨rfl, hreads⟩ := List.append_eq_nil_iff.mp hnil.symm
            cases hr : callbacks parser (es ++ [.messageComplete]) http with
            | none => rfl
            | some http₁ => exact readRequest_nil hreads

/-- However a request with a header field is cut into reads and pieces, the object ends up the
same, with the pieces put together; a method that the server does not take is its end in each
case. -/
theorem readRequest_same {m m' : Message} (h : m.Same m') (hne : m.headers ≠ [])
    (hr : reads.flatten = m.events) (hr' : reads'.flatten = m'.events) :
    readRequest parser reads (new .request) = readRequest parser reads' (new .request) ∧
      (parser.method ∈ [.get, .connect, .post, .head, .put, .delete, .move] →
        ∃ http, readRequest parser reads (new .request) = some http ∧ http.url = m.url ∧
          http.path = m.path ∧ http.query = m.query ∧ http.host = hostOf [] m.fields ∧
          http.body = m.body ∧ http.getHeaders = m.fields) := by
  have hread : ∀ (m : Message) (reads : List (List HttpEvent)), reads.flatten = m.events →
      readRequest parser reads (new .request) = callbacks parser m.events (new .request) := by
    intro m reads hr
    obtain ⟨es, hes, hmem⟩ := m.events_eq_concat
    rw [hes] at hr ⊢
    exact readRequest_eq rfl rfl hmem hr
  have hne' : m'.headers ≠ [] := fun hnil => hne (by
    have hfields := h.fields
    rwa [Message.fields, Message.fields, hnil, List.map_nil, List.map_eq_nil_iff] at hfields)
  have hsame : m.received parser.method = m'.received parser.method := by
    rw [Message.received, Message.received, h.url, h.path, h.query, h.fields, h.body]
  refine ⟨?_, fun hm => ?_⟩
  · rw [hread m reads hr, hread m' reads' hr', callbacks_collected m parser.method,
      callbacks_collected m' parser.method, if_neg hne, if_neg hne', hsame]
  · rw [hread m reads hr, callbacks_events hm, if_neg hne]
    exact ⟨_, rfl, rfl, rfl, rfl, rfl, rfl, rfl⟩

/-- `Host: a` in one read, and cut in the middle of the name, with an empty piece of the value. -/
theorem readRequest_host : readRequest ⟨1, 1, 0, .get⟩
      [Message.events ⟨[.url [47], .path [47]], [⟨[72, 111, 115, 116], [], [97], []⟩], []⟩]
      (new .request) =
    readRequest ⟨1, 1, 0, .get⟩
      [[.messageBegin, .url [47], .path [47], .headerField [72, 111]],
        [.headerField [115, 116], .headerValue [], .headerValue [97], .headersComplete,
          .messageComplete]] (new .request) :=
  have hsame : Message.Same ⟨[.url [47], .path [47]], [⟨[72, 111, 115, 116], [], [97], []⟩], []⟩
      ⟨[.url [47], .path [47]], [⟨[72, 111], [[115, 116]], [], [[97]]⟩], []⟩ :=
    ⟨rfl, rfl, rfl, rfl, rfl⟩
  (readRequest_same hsame (by simp) rfl rfl).1

end HTTP

end Gunrock
