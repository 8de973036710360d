import Gunrock.HTTP
import Gunrock.Library.Script
import Gunrock.Library.Text

/-!
# The parser

`http_parser.c`, as it is compiled here: `HTTP_PARSER_STRICT` is `1` and assertions are checked.
`http_parser_execute` runs over the bytes of one read.  It keeps its state from one read to the
next, and hands the object behind it pieces of the bytes in callbacks.

What the body of its loop does with a byte is written as a `Script` whose calls are the marks and
the callbacks (`Parser.step`), so that the state machine stands apart from the pointers into the
buffer, which belong to one read (`Action.run`).

Bytes are written as numbers: `10` and `13` are the line ends, `32` is a space, `47` a slash and
`58` a colon.
-/

namespace Gunrock

open Text

/-! ## Tables -/

/-- `tokens`: the letters of a header field's name in lower case, `0` for what is not allowed. -/
def token (c : UInt8) : UInt8 :=
  if 65 ≤ c && c ≤ 90 then c + 32
  else if (32 ≤ c && c ≤ 39) || c == 42 || c == 43 || (45 ≤ c && c ≤ 57) || (94 ≤ c && c ≤ 122) ||
      (124 ≤ c && c ≤ 126) then c
  else 0

/-- `acceptable_header`: letters in lower case, digits, and `' '`, `'-'` and `'_'`. -/
def acceptableHeader (c : UInt8) : UInt8 :=
  if 65 ≤ c && c ≤ 90 then c + 32
  else if c == 32 || c == 45 || isDigit c || c == 95 || (97 ≤ c && c ≤ 122) then c
  else 0

/-- `unhex`.  The initializer has half as many entries as the table, and the rest is `0`. -/
def unhex (c : UInt8) : Int :=
  if 128 ≤ c then 0 else ((hexDigitValue c).map Int.ofNat).getD (-1)

/-- `LOWER(c)` -/
def lower (c : UInt8) : UInt8 := c ||| 32

/-- `method_strings` -/
def methodString : HttpMethod → Bytes
  | .delete => bytes "DELETE"
  | .get => bytes "GET"
  | .head => bytes "HEAD"
  | .post => bytes "POST"
  | .put => bytes "PUT"
  | .connect => bytes "CONNECT"
  | .options => bytes "OPTIONS"
  | .trace => bytes "TRACE"
  | .copy => bytes "COPY"
  | .lock => bytes "LOCK"
  | .mkcol => bytes "MKCOL"
  | .move => bytes "MOVE"
  | .propfind => bytes "PROPFIND"
  | .proppatch => bytes "PROPPATCH"
  | .unlock => bytes "UNLOCK"
  | .report => bytes "REPORT"
  | .mkactivity => bytes "MKACTIVITY"
  | .checkout => bytes "CHECKOUT"
  | .merge => bytes "MERGE"

/-- `HTTP_MAX_HEADER_SIZE` -/
def maxHeaderSize : Nat := 80 * 1024

/-- The `int64_t` that a value is stored as. -/
def int64 (z : Int) : Int := z.bmod (2 ^ 64)

/-! ## The state -/

/-- `enum state` -/
inductive ParserState where
  | dead
  | startReqOrRes | resOrRespH | startRes | resH | resHT | resHTT | resHTTP
  | resFirstHttpMajor | resHttpMajor | resFirstHttpMinor | resHttpMinor
  | resFirstStatusCode | resStatusCode | resStatus | resLineAlmostDone
  | startReq
  | reqMethod | reqSpacesBeforeUrl | reqSchema | reqSchemaSlash | reqSchemaSlashSlash
  | reqHost | reqPort | reqPath | reqQueryStringStart | reqQueryString
  | reqFragmentStart | reqFragment
  | reqHttpStart | reqHttpH | reqHttpHT | reqHttpHTT | reqHttpHTTP
  | reqFirstHttpMajor | reqHttpMajor | reqFirstHttpMinor | reqHttpMinor | reqLineAlmostDone
  | headerFieldStart | headerField | headerValueStart | headerValue
  | headerAlmostDone | headersAlmostDone
  | chunkSizeStart | chunkSize | chunkSizeAlmostDone | chunkParameters
  | chunkData | chunkDataAlmostDone | chunkDataDone
  | bodyIdentity | bodyIdentityEof
deriving DecidableEq, Repr

/-- `enum header_states` -/
inductive HeaderState where
  | general | c | co | con
  | matchingConnection | matchingProxyConnection | matchingContentLength
  | matchingTransferEncoding | matchingUpgrade
  | connection | contentLength | transferEncoding | upgrade
  | matchingTransferEncodingChunked | matchingConnectionKeepAlive | matchingConnectionClose
  | transferEncodingChunked | connectionKeepAlive | connectionClose
deriving DecidableEq, Repr

/-- `enum flags` -/
structure Flags where
  chunked : Bool := false
  connectionKeepAlive : Bool := false
  connectionClose : Bool := false
  trailing : Bool := false
  upgrade : Bool := false
  skipbody : Bool := false
deriving DecidableEq, Repr

/-- `http_parser`.  The fields that `http_parser_execute` keeps in local variables are no different
from the others, until it returns (`Parser.abandon`). -/
@[ext] structure Parser extends HttpParser where
  type : HttpParserType
  flags : Flags
  state : ParserState
  headerState : HeaderState
  index : Nat
  nread : Nat
  contentLength : Int
  /-- The header field `Upgrade` was present. -/
  upgraded : Bool

/-- The marks: the pieces that are handed on in callbacks of their own. -/
inductive Piece where
  | headerField | headerValue | fragment | queryString | path | url
deriving DecidableEq, Repr

namespace Piece

def event : Piece → Bytes → HttpEvent
  | headerField => .headerField
  | headerValue => .headerValue
  | fragment => .fragment
  | queryString => .queryString
  | path => .path
  | url => .url

/-- The order in which the open pieces are handed on at the end of a read. -/
def all : List Piece := [headerField, headerValue, fragment, queryString, path, url]

end Piece

namespace ParserState

/-- All states but those of the body. -/
def ofHeader : ParserState → Bool
  | chunkSizeStart | chunkSize | chunkSizeAlmostDone | chunkParameters
  | chunkData | chunkDataAlmostDone | chunkDataDone
  | bodyIdentity | bodyIdentityEof => false
  | _ => true

/-- The marks that are set at the beginning of a read. -/
def marked : ParserState → Piece → Bool
  | headerField, .headerField => true
  | headerValue, .headerValue => true
  | reqFragment, .fragment => true
  | reqQueryString, .queryString => true
  | reqPath, .path => true
  | reqPath, .url | reqSchema, .url | reqSchemaSlash, .url | reqSchemaSlashSlash, .url
  | reqPort, .url | reqQueryStringStart, .url | reqQueryString, .url | reqHost, .url
  | reqFragmentStart, .url | reqFragment, .url => true
  | _, _ => false

def marks (s : ParserState) (k : Piece) : Option Nat := if s.marked k then some 0 else none

end ParserState

/-! ## Scripts for a byte -/

/-- What is done for a byte, besides the computations on the parser's fields. -/
inductive Action where
  /-- `MARK` -/
  | mark (k : Piece)
  /-- `CALLBACK` -/
  | callback (parser : Parser) (k : Piece)
  /-- A callback without a piece. -/
  | notify (parser : Parser) (e : HttpEvent)
  /-- `on_body`, for `count` bytes. -/
  | body (parser : Parser) (count : Nat)

/-- How the work on a byte ends. -/
inductive Next where
  /-- The loop goes on, `count` bytes further. -/
  | next (parser : Parser) (count : Nat)
  /-- A callback ends the run, when the pointer has been moved by `count`. -/
  | stop (parser : Parser) (count : Nat)
  /-- `goto error` -/
  | error (parser : Parser)
  /-- An assertion fails, or a read outside a string. -/
  | crash

/-- The work on a byte; a callback is answered with its return value. -/
abbrev Step := Script Action Int Next

namespace Parser

def goto (parser : Parser) (state : ParserState) : Parser := { parser with state := state }

def goOn (parser : Parser) : Step := .ret (.next parser 1)

def error (parser : Parser) : Step := .ret (.error parser)

def crash : Step := .ret .crash

def mark (k : Piece) (step : Step) : Step := .call (.mark k) fun _ => step

/-- `CALLBACK`, and what comes after it. -/
def callback (parser : Parser) (k : Piece) (step : Step) : Step :=
  .call (.callback parser k) fun ret => if ret ≠ 0 then .ret (.stop parser 0) else step

/-- `CALLBACK2`, and what comes after it, when the pointer has been moved by `count`. -/
def callback2 (parser : Parser) (e : HttpEvent) (count : Nat) (step : Step) : Step :=
  .call (.notify parser e) fun ret => if ret ≠ 0 then .ret (.stop parser count) else step

/-- The states in which there is one byte to expect. -/
def expect (parser : Parser) (c ch : UInt8) (state : ParserState) : Step :=
  if ch ≠ c then parser.error else (parser.goto state).goOn

/-- `http_should_keep_alive` -/
def shouldKeepAlive (parser : Parser) : Bool :=
  if parser.httpMajor > 0 ∧ parser.httpMinor > 0 then !parser.flags.connectionClose
  else parser.flags.connectionKeepAlive

/-- `start_state` -/
def startState (parser : Parser) : ParserState :=
  if parser.type = .request then .startReq else .startRes

/-- `state = NEW_MESSAGE()` -/
def newMessage (parser : Parser) : Parser :=
  parser.goto (if parser.shouldKeepAlive then parser.startState else .dead)

/-- What is forgotten with a message's first byte. -/
def fresh (parser : Parser) : Parser := { parser with flags := {}, contentLength := -1 }

/-! ## The first line -/

/-- The method that a first letter stands for, until more is known. -/
def firstMethod : UInt8 → Option HttpMethod
  | 67 => some .connect
  | 68 => some .delete
  | 71 => some .get
  | 72 => some .head
  | 76 => some .lock
  | 77 => some .mkcol
  | 79 => some .options
  | 80 => some .post
  | 82 => some .report
  | 84 => some .trace
  | 85 => some .unlock
  | _ => none

/-- `start_req_method_assign` -/
def startReqMethodAssign (parser : Parser) (ch : UInt8) : Step :=
  match firstMethod ch with
  | some method => { parser with method := method, index := 1, state := .reqMethod }.goOn
  | none => { parser with method := .delete, index := 1 }.error

def startReqOrRes (parser : Parser) (ch : UInt8) : Step :=
  if ch = 13 ∨ ch = 10 then parser.goOn
  else
    parser.fresh.callback2 .messageBegin 0 <|
      if ch = 72 then (parser.fresh.goto .resOrRespH).goOn
      else { parser.fresh with type := .request }.startReqMethodAssign ch

def resOrRespH (parser : Parser) (ch : UInt8) : Step :=
  if ch = 84 then { parser with type := .response, state := .resHT }.goOn
  else if ch ≠ 69 then parser.error
  else { parser with type := .request, method := .head, index := 2, state := .reqMethod }.goOn

def startRes (parser : Parser) (ch : UInt8) : Step :=
  parser.fresh.callback2 .messageBegin 0 <|
    if ch = 72 then (parser.fresh.goto .resH).goOn
    else if ch = 13 ∨ ch = 10 then parser.fresh.goOn
    else parser.fresh.error

def startReq (parser : Parser) (ch : UInt8) : Step :=
  if ch = 13 ∨ ch = 10 then parser.goOn
  else
    parser.fresh.callback2 .messageBegin 0 <|
      if ch < 65 ∨ 90 < ch then parser.fresh.error else parser.fresh.startReqMethodAssign ch

/-- The first digit of the major version. -/
def firstHttpMajor (parser : Parser) (ch : UInt8) (state : ParserState) : Step :=
  if ch < 49 ∨ 57 < ch then parser.error
  else { parser with httpMajor := ch.toNat - 48, state := state }.goOn

def httpMajorDigit (parser : Parser) (ch : UInt8) (state : ParserState) : Step :=
  if ch = 46 then (parser.goto state).goOn
  else if ¬ isDigit ch then parser.error
  else
    let parser := { parser with httpMajor := parser.httpMajor * 10 + (ch.toNat - 48) }
    if parser.httpMajor > 999 then parser.error else parser.goOn

def firstHttpMinor (parser : Parser) (ch : UInt8) (state : ParserState) : Step :=
  if ¬ isDigit ch then parser.error
  else { parser with httpMinor := ch.toNat - 48, state := state }.goOn

def httpMinorDigit (parser : Parser) (ch : UInt8) : Step :=
  if ¬ isDigit ch then parser.error
  else
    let parser := { parser with httpMinor := parser.httpMinor * 10 + (ch.toNat - 48) }
    if parser.httpMinor > 999 then parser.error else parser.goOn

def resFirstStatusCode (parser : Parser) (ch : UInt8) : Step :=
  if ¬ isDigit ch then
    if ch = 32 then parser.goOn else parser.error
  else { parser with statusCode := ch.toNat - 48, state := .resStatusCode }.goOn

def resStatusCode (parser : Parser) (ch : UInt8) : Step :=
  if ¬ isDigit ch then
    if ch = 32 then (parser.goto .resStatus).goOn
    else if ch = 13 then (parser.goto .resLineAlmostDone).goOn
    else if ch = 10 then (parser.goto .headerFieldStart).goOn
    else parser.error
  else
    let parser := { parser with statusCode := parser.statusCode * 10 + (ch.toNat - 48) }
    if parser.statusCode > 999 then parser.error else parser.goOn

/-- The method to go on with when `ch` is not the next letter of this one. -/
def switchMethod (parser : Parser) (ch : UInt8) : Option HttpMethod :=
  match parser.method with
  | .connect => some
      (if parser.index = 1 ∧ ch = 72 then .checkout
      else if parser.index = 2 ∧ ch = 80 then .copy
      else .connect)
  | .mkcol => some
      (if parser.index = 1 ∧ ch = 79 then .move
      else if parser.index = 1 ∧ ch = 69 then .merge
      else if parser.index = 2 ∧ ch = 65 then .mkactivity
      else .mkcol)
  | .post =>
      if parser.index = 1 ∧ ch = 82 then some .propfind
      else if parser.index = 1 ∧ ch = 85 then some .put
      else none
  | .propfind => if parser.index = 4 ∧ ch = 80 then some .proppatch else none
  | _ => none

/-- `matcher[index]` is read before anything else.  Behind the string's end it is not there. -/
def reqMethod (parser : Parser) (ch : UInt8) : Step :=
  if ch = 0 then parser.error
  else
    match (methodString parser.method ++ [0])[parser.index]? with
    | some c =>
      if ch = 32 ∧ c = 0 then
        { parser with state := .reqSpacesBeforeUrl, index := parser.index + 1 }.goOn
      else if ch = c then { parser with index := parser.index + 1 }.goOn
      else
        match parser.switchMethod ch with
        | some method => { parser with method := method, index := parser.index + 1 }.goOn
        | none => parser.error
    | none => crash

def reqSpacesBeforeUrl (parser : Parser) (ch : UInt8) : Step :=
  if ch = 32 then parser.goOn
  else if ch = 47 then mark .url <| mark .path <| (parser.goto .reqPath).goOn
  else if 97 ≤ lower ch ∧ lower ch ≤ 122 then mark .url (parser.goto .reqSchema).goOn
  else parser.error

def reqSchema (parser : Parser) (ch : UInt8) : Step :=
  if (97 ≤ lower ch ∧ lower ch ≤ 122) ∨ isDigit (lower ch) ∨ lower ch = 45 then parser.goOn
  else if ch = 58 then (parser.goto .reqSchemaSlash).goOn
  else if ch = 46 then (parser.goto .reqHost).goOn
  else parser.error

def reqHost (parser : Parser) (ch : UInt8) : Step :=
  if (97 ≤ lower ch ∧ lower ch ≤ 122) ∨ isDigit ch ∨ ch = 46 ∨ ch = 45 then parser.goOn
  else if ch = 58 then (parser.goto .reqPort).goOn
  else if ch = 47 then mark .path (parser.goto .reqPath).goOn
  else if ch = 32 then parser.callback .url (parser.goto .reqHttpStart).goOn
  else parser.error

def reqPort (parser : Parser) (ch : UInt8) : Step :=
  if isDigit ch then parser.goOn
  else if ch = 47 then mark .path (parser.goto .reqPath).goOn
  else if ch = 32 then parser.callback .url (parser.goto .reqHttpStart).goOn
  else parser.error

/-- The line ends without a version. -/
def shortLine (parser : Parser) (state : ParserState) : Step :=
  { parser with httpMinor := 9, state := state }.goOn

def reqPath (parser : Parser) (ch : UInt8) : Step :=
  if normalUrlChar ch then parser.goOn
  else if ch = 32 then
    parser.callback .url <| parser.callback .path <| (parser.goto .reqHttpStart).goOn
  else if ch = 13 then
    parser.callback .url <| parser.callback .path <| parser.shortLine .reqLineAlmostDone
  else if ch = 10 then
    parser.callback .url <| parser.callback .path <| parser.shortLine .headerFieldStart
  else if ch = 63 then parser.callback .path (parser.goto .reqQueryStringStart).goOn
  else if ch = 35 then parser.callback .path (parser.goto .reqFragmentStart).goOn
  else parser.error

def reqQueryStringStart (parser : Parser) (ch : UInt8) : Step :=
  if normalUrlChar ch then mark .queryString (parser.goto .reqQueryString).goOn
  else if ch = 63 then parser.goOn
  else if ch = 32 then parser.callback .url (parser.goto .reqHttpStart).goOn
  else if ch = 13 then parser.callback .url <| parser.shortLine .reqLineAlmostDone
  else if ch = 10 then parser.callback .url <| parser.shortLine .headerFieldStart
  else if ch = 35 then (parser.goto .reqFragmentStart).goOn
  else parser.error

def reqQueryString (parser : Parser) (ch : UInt8) : Step :=
  if normalUrlChar ch ∨ ch = 63 then parser.goOn
  else if ch = 32 then
    parser.callback .url <| parser.callback .queryString <| (parser.goto .reqHttpStart).goOn
  else if ch = 13 then
    parser.callback .url <| parser.callback .queryString <| parser.shortLine .reqLineAlmostDone
  else if ch = 10 then
    parser.callback .url <| parser.callback .queryString <| parser.shortLine .headerFieldStart
  else if ch = 35 then parser.callback .queryString (parser.goto .reqFragmentStart).goOn
  else parser.error

def reqFragmentStart (parser : Parser) (ch : UInt8) : Step :=
  if normalUrlChar ch ∨ ch = 63 then mark .fragment (parser.goto .reqFragment).goOn
  else if ch = 32 then parser.callback .url (parser.goto .reqHttpStart).goOn
  else if ch = 13 then parser.callback .url <| parser.shortLine .reqLineAlmostDone
  else if ch = 10 then parser.callback .url <| parser.shortLine .headerFieldStart
  else if ch = 35 then parser.goOn
  else parser.error

def reqFragment (parser : Parser) (ch : UInt8) : Step :=
  if normalUrlChar ch ∨ ch = 63 ∨ ch = 35 then parser.goOn
  else if ch = 32 then
    parser.callback .url <| parser.callback .fragment <| (parser.goto .reqHttpStart).goOn
  else if ch = 13 then
    parser.callback .url <| parser.callback .fragment <| parser.shortLine .reqLineAlmostDone
  else if ch = 10 then
    parser.callback .url <| parser.callback .fragment <| parser.shortLine .headerFieldStart
  else parser.error

def reqHttpStart (parser : Parser) (ch : UInt8) : Step :=
  if ch = 72 then (parser.goto .reqHttpH).goOn
  else if ch = 32 then parser.goOn
  else parser.error

/-! ## Header fields -/

/-- One more letter `c` of `word`, at whose end comes the state `done`. -/
def matching (parser : Parser) (word : Bytes) (done : HeaderState) (c : UInt8) : Parser :=
  let parser := { parser with index := parser.index + 1 }
  if parser.index > word.length ∨ word[parser.index]? ≠ some c then
    { parser with headerState := .general }
  else if parser.index + 1 = word.length then { parser with headerState := done }
  else parser

/-- A letter of a header field's name, `c` in lower case; the state may be unknown. -/
def fieldLetter (parser : Parser) (ch c : UInt8) : Option Parser :=
  match parser.headerState with
  | .general => some parser
  | .c => some
      { parser with
        index := parser.index + 1
        headerState := if c = 111 then .co else .general }
  | .co => some
      { parser with
        index := parser.index + 1
        headerState := if c = 110 then .con else .general }
  | .con => some
      { parser with
        index := parser.index + 1
        headerState := if c = 110 then .matchingConnection
          else if c = 116 then .matchingContentLength
          else .general }
  | .matchingConnection => some (parser.matching (bytes "connection") .connection c)
  | .matchingProxyConnection => some (parser.matching (bytes "proxy-connection") .connection c)
  | .matchingContentLength => some (parser.matching (bytes "content-length") .contentLength c)
  | .matchingTransferEncoding =>
      some (parser.matching (bytes "transfer-encoding") .transferEncoding c)
  | .matchingUpgrade => some (parser.matching (bytes "upgrade") .upgrade c)
  | .connection | .contentLength | .transferEncoding | .upgrade =>
      some (if ch ≠ 32 then { parser with headerState := .general } else parser)
  | _ => none

/-- The end of a message. -/
def complete (parser : Parser) : Step :=
  parser.callback2 .messageComplete 0 parser.newMessage.goOn

/-- The end of the header fields, from the test of `upgrade` on. -/
def beginBody (parser : Parser) : Step :=
  if parser.upgraded then parser.callback2 .messageComplete 0 (.ret (.stop parser 0))
  else if parser.flags.skipbody then parser.complete
  else if parser.flags.chunked then (parser.goto .chunkSizeStart).goOn
  else if parser.contentLength = 0 then parser.complete
  else if 0 < parser.contentLength then (parser.goto .bodyIdentity).goOn
  else if parser.type = .request ∨ parser.shouldKeepAlive then parser.complete
  else (parser.goto .bodyIdentityEof).goOn

/-- The `switch` over what `on_headers_complete` returns. -/
def headersCompleted (parser : Parser) (ret : Int) : Step :=
  if ret = 0 then parser.beginBody
  else if ret = 1 then { parser with flags := { parser.flags with skipbody := true } }.beginBody
  else .ret (.stop parser 0)

/-- What the parser has seen by the end of the header fields. -/
def headersRead (parser : Parser) : Parser :=
  { parser with
    nread := 0
    upgraded := parser.flags.upgrade || parser.method = .connect || parser.upgraded }

/-- `headers_almost_done` -/
def headersAlmostDone (parser : Parser) (ch : UInt8) : Step :=
  if ch ≠ 10 then parser.error
  else if parser.flags.trailing then parser.complete
  else .call (.notify parser.headersRead .headersComplete) parser.headersRead.headersCompleted

/-- The word that a header field's first letter can begin. -/
def firstHeaderState : UInt8 → HeaderState
  | 99 => .c
  | 112 => .matchingProxyConnection
  | 116 => .matchingTransferEncoding
  | 117 => .matchingUpgrade
  | _ => .general

def headerFieldStart (parser : Parser) (ch : UInt8) : Step :=
  if ch = 13 then (parser.goto .headersAlmostDone).goOn
  else if ch = 10 then (parser.goto .headersAlmostDone).headersAlmostDone ch
  else if token ch = 0 then parser.error
  else
    mark .headerField
      { parser with
        index := 0
        state := .headerField
        headerState := firstHeaderState (token ch) }.goOn

def headerField (parser : Parser) (ch : UInt8) : Step :=
  if token ch ≠ 0 then
    match parser.fieldLetter ch (token ch) with
    | some parser => parser.goOn
    | none => crash
  else if ch = 58 then parser.callback .headerField (parser.goto .headerValueStart).goOn
  else if ch = 13 then parser.callback .headerField (parser.goto .headerAlmostDone).goOn
  else if ch = 10 then parser.callback .headerField (parser.goto .headerFieldStart).goOn
  else parser.error

/-- The first byte of a header value, `c` in lower case, unless it cannot be one. -/
def firstLetter (parser : Parser) (ch c : UInt8) : Option Parser :=
  match parser.headerState with
  | .upgrade => some
      { parser with flags := { parser.flags with upgrade := true }, headerState := .general }
  | .transferEncoding => some
      { parser with
        headerState := if c = 99 then .matchingTransferEncodingChunked else .general }
  | .contentLength =>
      if ¬ isDigit ch then none else some { parser with contentLength := (ch.toNat - 48 : Nat) }
  | .connection => some
      { parser with
        headerState := if c = 107 then .matchingConnectionKeepAlive
          else if c = 99 then .matchingConnectionClose
          else .general }
  | _ => some { parser with headerState := .general }

def headerValueStart (parser : Parser) (ch : UInt8) : Step :=
  if ch = 32 then parser.goOn
  else
    mark .headerValue <|
      let parser := { parser with state := .headerValue, index := 0 }
      if acceptableHeader ch = 0 then
        if ch = 13 then
          parser.callback .headerValue
            { parser with headerState := .general, state := .headerAlmostDone }.goOn
        else if ch = 10 then parser.callback .headerValue (parser.goto .headerFieldStart).goOn
        else { parser with headerState := .general }.goOn
      else
        match parser.firstLetter ch (acceptableHeader ch) with
        | some parser => parser.goOn
        | none => parser.error

/-- `header_almost_done` -/
def headerAlmostDone (parser : Parser) (ch : UInt8) : Step :=
  if ch ≠ 10 then parser.error
  else
    { parser with
      state := .headerFieldStart
      flags := match parser.headerState with
        | .connectionKeepAlive => { parser.flags with connectionKeepAlive := true }
        | .connectionClose => { parser.flags with connectionClose := true }
        | .transferEncodingChunked => { parser.flags with chunked := true }
        | _ => parser.flags }.goOn

/-- One more byte of a header value, `c` in lower case: it is no digit, or the state is wrong. -/
def valueLetter (parser : Parser) (ch c : UInt8) : Step :=
  match parser.headerState with
  | .general => parser.goOn
  | .connection | .transferEncoding => crash
  | .contentLength =>
      if ch = 32 then parser.goOn
      else if ¬ isDigit ch then parser.error
      else
        let shifted := int64 (parser.contentLength * 10)
        { parser with contentLength := int64 (shifted + (ch.toNat - 48 : Nat)) }.goOn
  | .matchingTransferEncodingChunked =>
      (parser.matching (bytes "chunked") .transferEncodingChunked c).goOn
  | .matchingConnectionKeepAlive =>
      (parser.matching (bytes "keep-alive") .connectionKeepAlive c).goOn
  | .matchingConnectionClose => (parser.matching (bytes "close") .connectionClose c).goOn
  | .transferEncodingChunked | .connectionKeepAlive | .connectionClose =>
      (if ch ≠ 32 then { parser with headerState := .general } else parser).goOn
  | _ => { parser with state := .headerValue, headerState := .general }.goOn

def headerValue (parser : Parser) (ch : UInt8) : Step :=
  if acceptableHeader ch = 0 then
    if ch = 13 then parser.callback .headerValue (parser.goto .headerAlmostDone).goOn
    else if ch = 10 then parser.callback .headerValue (parser.headerAlmostDone ch)
    else parser.goOn
  else parser.valueLetter ch (acceptableHeader ch)

/-! ## The body -/

/-- `avail` bytes are left of the read. -/
def bodyIdentity (parser : Parser) (avail : Nat) : Step :=
  let toRead := (min (avail : Int) parser.contentLength).toNat
  if 0 < toRead then
    .call (.body parser toRead) fun _ =>
      let parser := { parser with contentLength := parser.contentLength - toRead }
      if parser.contentLength = 0 then
        parser.callback2 .messageComplete (toRead - 1) (.ret (.next parser.newMessage toRead))
      else .ret (.next parser toRead)
  else parser.goOn

def bodyIdentityEof (parser : Parser) (avail : Nat) : Step :=
  if 0 < avail then .call (.body parser avail) fun _ => .ret (.next parser avail)
  else parser.goOn

/-- The assertion that stands in every state of a chunk. -/
def ofChunk (parser : Parser) (step : Step) : Step := if parser.flags.chunked then step else crash

def chunkSizeStart (parser : Parser) (ch : UInt8) : Step :=
  if unhex ch = -1 then parser.error
  else { parser with contentLength := unhex ch, state := .chunkSize }.goOn

def chunkSize (parser : Parser) (ch : UInt8) : Step :=
  if ch = 13 then (parser.goto .chunkSizeAlmostDone).goOn
  else if unhex ch = -1 then
    if ch = 59 ∨ ch = 32 then (parser.goto .chunkParameters).goOn else parser.error
  else
    { parser with contentLength := int64 (int64 (parser.contentLength * 16) + unhex ch) }.goOn

def chunkParameters (parser : Parser) (ch : UInt8) : Step :=
  if ch = 13 then (parser.goto .chunkSizeAlmostDone).goOn else parser.goOn

def chunkSizeAlmostDone (parser : Parser) (ch : UInt8) : Step :=
  if ch ≠ 10 then parser.error
  else if parser.contentLength = 0 then
    { parser with
      flags := { parser.flags with trailing := true }
      state := .headerFieldStart }.goOn
  else (parser.goto .chunkData).goOn

def chunkData (parser : Parser) (avail : Nat) : Step :=
  let toRead := min (avail : Int) parser.contentLength
  let after :=
    { parser with
      contentLength := parser.contentLength - toRead
      state := if toRead = parser.contentLength then .chunkDataAlmostDone else .chunkData }
  if 0 < toRead then
    .call (.body parser toRead.toNat) fun _ => .ret (.next after toRead.toNat)
  else after.goOn

/-! ## The loop -/

/-- The `switch`: the work on the byte `ch`, when `avail` bytes are left with it. -/
def step (parser : Parser) (ch : UInt8) (avail : Nat) : Step :=
  match parser.state with
  | .dead => parser.error
  | .startReqOrRes => parser.startReqOrRes ch
  | .resOrRespH => parser.resOrRespH ch
  | .startRes => parser.startRes ch
  | .resH => parser.expect 84 ch .resHT
  | .resHT => parser.expect 84 ch .resHTT
  | .resHTT => parser.expect 80 ch .resHTTP
  | .resHTTP => parser.expect 47 ch .resFirstHttpMajor
  | .resFirstHttpMajor => parser.firstHttpMajor ch .resHttpMajor
  | .resHttpMajor => parser.httpMajorDigit ch .resFirstHttpMinor
  | .resFirstHttpMinor => parser.firstHttpMinor ch .resHttpMinor
  | .resHttpMinor =>
      if ch = 32 then (parser.goto .resFirstStatusCode).goOn else parser.httpMinorDigit ch
  | .resFirstStatusCode => parser.resFirstStatusCode ch
  | .resStatusCode => parser.resStatusCode ch
  | .resStatus =>
      if ch = 13 then (parser.goto .resLineAlmostDone).goOn
      else if ch = 10 then (parser.goto .headerFieldStart).goOn
      else parser.goOn
  | .resLineAlmostDone => parser.expect 10 ch .headerFieldStart
  | .startReq => parser.startReq ch
  | .reqMethod => parser.reqMethod ch
  | .reqSpacesBeforeUrl => parser.reqSpacesBeforeUrl ch
  | .reqSchema => parser.reqSchema ch
  | .reqSchemaSlash => parser.expect 47 ch .reqSchemaSlashSlash
  | .reqSchemaSlashSlash => parser.expect 47 ch .reqHost
  | .reqHost => parser.reqHost ch
  | .reqPort => parser.reqPort ch
  | .reqPath => parser.reqPath ch
  | .reqQueryStringStart => parser.reqQueryStringStart ch
  | .reqQueryString => parser.reqQueryString ch
  | .reqFragmentStart => parser.reqFragmentStart ch
  | .reqFragment => parser.reqFragment ch
  | .reqHttpStart => parser.reqHttpStart ch
  | .reqHttpH => parser.expect 84 ch .reqHttpHT
  | .reqHttpHT => parser.expect 84 ch .reqHttpHTT
  | .reqHttpHTT => parser.expect 80 ch .reqHttpHTTP
  | .reqHttpHTTP => parser.expect 47 ch .reqFirstHttpMajor
  | .reqFirstHttpMajor => parser.firstHttpMajor ch .reqHttpMajor
  | .reqHttpMajor => parser.httpMajorDigit ch .reqFirstHttpMinor
  | .reqFirstHttpMinor => parser.firstHttpMinor ch .reqHttpMinor
  | .reqHttpMinor =>
      if ch = 13 then (parser.goto .reqLineAlmostDone).goOn
      else if ch = 10 then (parser.goto .headerFieldStart).goOn
      else parser.httpMinorDigit ch
  | .reqLineAlmostDone => parser.expect 10 ch .headerFieldStart
  | .headerFieldStart => parser.headerFieldStart ch
  | .headerField => parser.headerField ch
  | .headerValueStart => parser.headerValueStart ch
  | .headerValue => parser.headerValue ch
  | .headerAlmostDone => parser.headerAlmostDone ch
  | .headersAlmostDone => parser.headersAlmostDone ch
  | .bodyIdentity => parser.bodyIdentity avail
  | .bodyIdentityEof => parser.bodyIdentityEof avail
  | .chunkSizeStart => parser.ofChunk (parser.chunkSizeStart ch)
  | .chunkSize => parser.ofChunk (parser.chunkSize ch)
  | .chunkParameters => parser.ofChunk (parser.chunkParameters ch)
  | .chunkSizeAlmostDone => parser.ofChunk (parser.chunkSizeAlmostDone ch)
  | .chunkData => parser.ofChunk (parser.chunkData avail)
  | .chunkDataAlmostDone => parser.ofChunk (parser.expect 13 ch .chunkDataDone)
  | .chunkDataDone => parser.ofChunk (parser.expect 10 ch .chunkSizeStart)

/-- `PARSING_HEADER` -/
def parsingHeader (parser : Parser) : Bool := parser.state.ofHeader && !parser.flags.trailing

/-- The body of the loop. -/
def advance (parser : Parser) (ch : UInt8) (avail : Nat) : Step :=
  if parser.parsingHeader then
    let parser := { parser with nread := parser.nread + 1 }
    if parser.nread > maxHeaderSize then parser.error else parser.step ch avail
  else parser.step ch avail

end Parser

/-! ## A read -/

/-- What is behind the parser while it works on a read: the object, and the marks. -/
structure Working (σ : Type) where
  obj : σ
  marks : Piece → Option Nat

/-- `http_parser_settings`: a callback is its return value and its effect, unless it crashes. -/
abbrev Settings (σ : Type) := HttpParser → σ → HttpEvent → Option (Int × σ)

variable {σ : Type} (settings : Settings σ) (data : Bytes)

/-- The bytes from `m` up to `p`. -/
def slice (m p : Nat) : Bytes := (data.take p).drop m

/-- A callback with the bytes since the mark of `k`, if it is set. -/
def Settings.piece (parser : Parser) (p : Nat) (k : Piece) : StateT (Working σ) Option Int := fun w =>
  match w.marks k with
  | none => some (0, w)
  | some m => (settings parser.toHttpParser w.obj (k.event (slice data m p))).map
      fun (ret, obj) => (ret, { w with obj := obj })

/-- The calls of a script, with the pointer at `p`. -/
def Action.run (p : Nat) : Action → StateT (Working σ) Option Int
  | mark k => fun w => some (0, { w with marks := Function.update w.marks k (some p) })
  | callback parser k => fun w => (settings.piece data parser p k w).map fun (ret, w) =>
      (ret, if ret = 0 then { w with marks := Function.update w.marks k none } else w)
  | notify parser e => fun w => (settings parser.toHttpParser w.obj e).map
      fun (ret, obj) => (ret, { w with obj := obj })
  | body parser count => fun w =>
      (settings parser.toHttpParser w.obj (.body (slice data p (p + count)))).map
        fun (ret, obj) => (ret, { w with obj := obj })

namespace Parser

/-- What is left of `parser` by a run that returns early: the local variables are not stored. -/
def abandon (entry parser : Parser) : Parser :=
  { parser with
    state := entry.state
    headerState := entry.headerState
    index := entry.index
    nread := entry.nread }

/-- The end of a read: the open pieces `ks` are handed on. -/
def finish (entry parser : Parser) : List Piece → StateT (Working σ) Option (Nat × Parser)
  | [] => return (data.length, parser)
  | k :: ks => do
    let ret ← settings.piece data parser data.length k
    if ret ≠ 0 then return (data.length, entry.abandon parser) else entry.finish parser ks

/-- The loop, with the pointer at `p`, for at most `n` rounds. -/
def loop (entry : Parser) :
    Nat → Parser → Nat → StateT (Working σ) Option (Nat × Parser)
  | n + 1, parser, p =>
    match data[p]? with
    | none => entry.finish settings data parser Piece.all
    | some ch => do
      match ← (parser.advance ch (data.length - p)).run (Action.run settings data p) with
      | .next parser count => entry.loop n parser (p + count)
      | .stop parser count => return (p + count, entry.abandon parser)
      | .error parser => return (p, { entry.abandon parser with state := .dead })
      | .crash => failure
  | 0, parser, _ => entry.finish settings data parser Piece.all

/-- `http_parser_execute`: the return value, the parser and the object. -/
def execute (parser : Parser) (obj : σ) : Option (Nat × Parser × σ) :=
  if data = [] then
    if parser.state = .bodyIdentityEof then
      (settings parser.toHttpParser obj .messageComplete).map fun (_, obj) => (0, parser, obj)
    else some (0, parser, obj)
  else
    ((parser.loop settings data data.length parser 0).run ⟨obj, parser.state.marks⟩).map
      fun ((count, parser), w) => (count, parser, w.obj)

/-- `http_parser_init`, for a `parser` that may hold anything. -/
def init (parser : Parser) (type : HttpParserType) : Parser :=
  { parser with
    type := type
    state := match type with
      | .request => .startReq
      | .response => .startRes
      | .both => .startReqOrRes
    nread := 0
    upgraded := false
    flags := {}
    method := .delete }

end Parser

end Gunrock
