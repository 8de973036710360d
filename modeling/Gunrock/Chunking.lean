import Gunrock.Delivering

/-!
# Bodies in chunks

`HttpUtils::writeChunk` writes a part of a body whose length is not known before, and
`writeLastChunk` the end of it.  What is written so, in any chunks, the parser puts together again,
whatever a `Content-Length` may say (`Wire.receive_chunkedText`).
-/

namespace Gunrock

open Text

namespace HttpUtils

/-- `writeChunk`: what is written for the `numBytes` bytes at `buf`, which may be `NULL`.  The number
is printed as an `unsigned int`. -/
def writeChunk (buf : Option Bytes) (numBytes : Int) : Bytes :=
  hexadecimal (numBytes % 2 ^ 32).toNat ++ bytes "\r\n" ++
    (if numBytes > 0 then (buf.getD []).take numBytes.toNat else []) ++ bytes "\r\n"

def writeLastChunk : Bytes := writeChunk none 0

/-- What is written for a chunk. -/
theorem writeChunk_some {bs : Bytes} (hne : bs ≠ []) (hlt : bs.length < 2 ^ 31) :
    writeChunk (some bs) bs.length = hexadecimal bs.length ++ [13, 10] ++ bs ++ [13, 10] := by
  have hcrlf : bytes "\r\n" = [13, 10] := by decide
  have hpos : (bs.length : Int) > 0 := Int.natCast_pos.mpr (List.length_pos_iff.mpr hne)
  have hmod : ((bs.length : Int) % 2 ^ 32).toNat = bs.length := by omega
  rw [writeChunk, if_pos hpos, hmod, hcrlf, Option.getD_some, Int.toNat_natCast,
    List.take_length]

theorem writeLastChunk_eq : writeLastChunk = [48, 13, 10, 13, 10] := by decide

end HttpUtils

namespace Wire

variable {parser : Parser} {http : HTTP} {method : HttpMethod} {state : ParserState} {n : Nat}
  {trailing : Bool} {len : Int} {ch : UInt8} {bs : Bytes} {chunks : List Bytes}

/-! ## The chunks -/

/-- A parser in the chunks of a body, which has read the length `len` of one or has `len` bytes of it
to go. -/
structure InChunks (method : HttpMethod) (len : Int) (trailing : Bool) (state : ParserState)
    (parser : Parser) : Prop where
  state : parser.state = state
  method : parser.method = method
  chunked : parser.flags.chunked = true
  trailing : parser.flags.trailing = trailing
  contentLength : parser.contentLength = len

/-- A byte that does not count as one of the header. -/
theorem InChunks.byte_eq (h : InChunks method len trailing state parser)
    (hs : state.ofHeader = false ∨ trailing = true) (hclosed : state.opens = .closed) :
    byte (parser, http) ch = Parser.settled HTTP.piece HTTP.callback HTTP.bodyPiece ch
      (parser.step ch 1) .closed http := by
  have hpar : parser.parsingHeader = false := by
    rw [Parser.parsingHeader, h.state, h.trailing]
    rcases hs with hs | hs <;> simp [hs]
  rw [byte, Parser.byte, Parser.advance, hpar, if_neg Bool.false_ne_true, h.state, hclosed]

/-- A byte that leads on. -/
theorem InChunks.reaches {Q : Parser → Prop} (h : InChunks method len trailing state parser)
    (parser' : Parser) (hs : state.ofHeader = false ∨ trailing = true)
    (hclosed : state.opens = .closed) (hstep : parser.step ch 1 = parser'.goOn) (hQ : Q parser') :
    Reaches (parser, http) [ch] http Q := by
  refine .one parser' ((h.byte_eq hs hclosed).trans ?_) hQ
  rw [hstep]
  rfl

theorem InChunks.goto (h : InChunks method len trailing state parser) (state' : ParserState) :
    InChunks method len trailing state' (parser.goto state') :=
  ⟨rfl, h.method, h.chunked, h.trailing, h.contentLength⟩

theorem InChunks.ofChunk (h : InChunks method len trailing state parser) (step : Step) :
    parser.ofChunk step = step := if_pos h.chunked

theorem unhex_digitChar {k : Nat} (hk : k < 16) : unhex (UInt8.ofNat k.digitChar.toNat) = k := by
  revert k
  decide

theorem digitChar_ne {k : Nat} (hk : k < 16) : UInt8.ofNat k.digitChar.toNat ≠ 13 := by
  revert k
  decide

/-- The first digit of a length. -/
theorem InChunks.firstDigit (h : InChunks method len false .chunkSizeStart parser) {k : Nat}
    (hk : k < 16) : Reaches (parser, http) [UInt8.ofNat k.digitChar.toNat] http
      (InChunks method k false .chunkSize) := by
  have hne : unhex (UInt8.ofNat k.digitChar.toNat) ≠ -1 := by
    rw [unhex_digitChar hk]
    omega
  have hstep : ∀ ch, parser.step ch 1 = parser.ofChunk (parser.chunkSizeStart ch) := fun ch => by
    rw [Parser.step, h.state]
  refine h.reaches { parser with contentLength := k, state := .chunkSize } (.inl rfl) rfl
    ((hstep _).trans ?_) ⟨rfl, h.method, h.chunked, h.trailing, rfl⟩
  rw [h.ofChunk, Parser.chunkSizeStart, if_neg hne, unhex_digitChar hk]

/-- One more digit. -/
theorem InChunks.digit (h : InChunks method n false .chunkSize parser) {k : Nat} (hk : k < 16)
    (hlt : 16 * n + k < 2 ^ 63) : Reaches (parser, http) [UInt8.ofNat k.digitChar.toNat] http
      (InChunks method (16 * n + k : Nat) false .chunkSize) := by
  have hne : unhex (UInt8.ofNat k.digitChar.toNat) ≠ -1 := by
    rw [unhex_digitChar hk]
    omega
  have hcount : int64 (int64 (parser.contentLength * 16) + k) = (16 * n + k : Nat) := by
    have hshift : (n : Int) * 16 = ((16 * n : Nat) : Int) := by omega
    rw [h.contentLength, hshift, int64_natCast (by omega)]
    exact int64_natCast hlt
  have hstep : ∀ ch, parser.step ch 1 = parser.ofChunk (parser.chunkSize ch) := fun ch => by
    rw [Parser.step, h.state]
  refine h.reaches
    { parser with contentLength := int64 (int64 (parser.contentLength * 16) + k) } (.inl rfl) rfl
    ((hstep _).trans ?_) ⟨h.state, h.method, h.chunked, h.trailing, hcount⟩
  rw [h.ofChunk, Parser.chunkSize, if_neg (digitChar_ne hk), if_neg hne, unhex_digitChar hk]

/-- A length. -/
theorem InChunks.reaches_size {size : Nat} (h : InChunks method len false .chunkSizeStart parser)
    (hsize : size < 2 ^ 63) : Reaches (parser, http) (hexadecimal size) http
      (InChunks method size false .chunkSize) := by
  induction size using Nat.strong_induction_on with
  | _ size ih =>
      rcases Nat.lt_or_ge size 16 with hlt | hge
      · rw [hexadecimal_of_lt hlt]
        exact h.firstDigit hlt
      · rw [hexadecimal_of_le hge]
        refine (ih (size / 16) (by omega) (by omega)).append fun parser h => ?_
        have hdigit : Reaches (parser, http) _ http _ :=
          h.digit (Nat.mod_lt size (by decide)) (by omega)
        rw [Nat.div_add_mod] at hdigit
        exact hdigit

theorem InChunks.carriageReturn (h : InChunks method len false .chunkSize parser) :
    Reaches (parser, http) [13] http (InChunks method len false .chunkSizeAlmostDone) := by
  refine h.reaches _ (.inl rfl) rfl ?_ (h.goto .chunkSizeAlmostDone)
  rw [Parser.step, h.state]
  exact h.ofChunk _

theorem InChunks.step_lineFeed (h : InChunks method len false .chunkSizeAlmostDone parser) :
    parser.step 10 1 = parser.chunkSizeAlmostDone 10 := by
  rw [Parser.step, h.state]
  exact h.ofChunk _

/-- The line end behind a length. -/
theorem InChunks.reaches_sizeEnd (h : InChunks method len false .chunkSize parser) (hlen : len ≠ 0) :
    Reaches (parser, http) [13, 10] http (InChunks method len false .chunkData) := by
  refine h.carriageReturn.cons fun p h =>
    h.reaches _ (.inl rfl) rfl (h.step_lineFeed.trans ?_) (h.goto .chunkData)
  rw [Parser.chunkSizeAlmostDone, if_neg (by decide), if_neg (h.contentLength ▸ hlen)]

/-- The line end behind the length of the last chunk. -/
theorem InChunks.reaches_lastSize (h : InChunks method 0 false .chunkSize parser) :
    Reaches (parser, http) [13, 10] http (InChunks method 0 true .headerFieldStart) := by
  refine h.carriageReturn.cons fun p h => h.reaches
    { p with flags := { p.flags with trailing := true }, state := .headerFieldStart }
    (.inl rfl) rfl (h.step_lineFeed.trans ?_) ⟨rfl, h.method, h.chunked, rfl, h.contentLength⟩
  rw [Parser.chunkSizeAlmostDone, if_neg (by decide), if_pos h.contentLength]

/-- The bytes of a chunk. -/
theorem InChunks.reaches_data (h : InChunks method bs.length false .chunkData parser)
    (hne : bs ≠ []) : Reaches (parser, http) bs (withBody http bs)
      (InChunks method 0 false .chunkDataAlmostDone) := by
  have hzero : (parser.consume bs.length).contentLength = 0 := by
    dsimp only [Parser.consume]
    rw [h.contentLength, Int.sub_self]
  refine ⟨(parser.consume bs.length).goto .chunkDataAlmostDone, ?_,
    ⟨rfl, h.method, h.chunked, h.trailing, hzero⟩⟩
  refine (Parser.foldlM_chunkData HTTP.collects h.state h.chunked hne h.contentLength.ge).trans ?_
  rw [Parser.afterChunk, if_pos hzero]
  rfl

/-- The line end behind a chunk. -/
theorem InChunks.reaches_dataEnd (h : InChunks method 0 false .chunkDataAlmostDone parser) :
    Reaches (parser, http) [13, 10] http (InChunks method 0 false .chunkSizeStart) := by
  have hcr : Reaches (parser, http) [13] http (InChunks method 0 false .chunkDataDone) := by
    refine h.reaches _ (.inl rfl) rfl ?_ (h.goto .chunkDataDone)
    rw [Parser.step, h.state]
    exact h.ofChunk _
  refine hcr.cons fun p h => h.reaches _ (.inl rfl) rfl ?_ (h.goto .chunkSizeStart)
  rw [Parser.step, h.state]
  exact h.ofChunk _

/-- A chunk. -/
theorem InChunks.reaches_chunk (h : InChunks method len false .chunkSizeStart parser)
    (hne : bs ≠ []) (hlt : bs.length < 2 ^ 31) :
    Reaches (parser, http) (HttpUtils.writeChunk (some bs) bs.length) (withBody http bs)
      (InChunks method 0 false .chunkSizeStart) := by
  have hsize : (bs.length : Int) ≠ 0 := by simpa using hne
  rw [HttpUtils.writeChunk_some hne hlt, List.append_assoc, List.append_assoc]
  exact (h.reaches_size (by omega)).append fun p h => (h.reaches_sizeEnd hsize).append
    fun p h => (h.reaches_data hne).append fun p h => h.reaches_dataEnd

/-- All chunks. -/
theorem InChunks.reaches_chunks (h : InChunks method len false .chunkSizeStart parser)
    (hchunks : ∀ bs ∈ chunks, bs ≠ [] ∧ bs.length < 2 ^ 31) :
    Reaches (parser, http) (chunks.flatMap fun bs => HttpUtils.writeChunk (some bs) bs.length)
      (withBody http chunks.flatten) fun p => ∃ len, InChunks method len false .chunkSizeStart p := by
  induction chunks generalizing parser http len with
  | nil =>
      rw [List.flatten_nil, withBody, List.append_nil]
      exact .nil ⟨len, h⟩
  | cons bs chunks ih =>
      obtain ⟨⟨hne, hlt⟩, hchunks⟩ := List.forall_mem_cons.mp hchunks
      rw [List.flatMap_cons, List.flatten_cons, ← withBody_withBody]
      exact (h.reaches_chunk hne hlt).append fun p h => ih h hchunks

/-- The last chunk, but for its last byte. -/
theorem InChunks.reaches_lastChunk (h : InChunks method len false .chunkSizeStart parser) :
    Reaches (parser, http) [48, 13, 10, 13] http (InChunks method 0 true .headersAlmostDone) := by
  have hdigit : Reaches (parser, http) [48] http (InChunks method 0 false .chunkSize) :=
    h.firstDigit (show 0 < 16 by decide)
  refine hdigit.cons fun p h => ?_
  refine h.reaches_lastSize.append fun p h => h.reaches _ (.inr rfl) rfl ?_ (h.goto .headersAlmostDone)
  rw [Parser.step, h.state]
  rfl

/-- The last byte. -/
theorem InChunks.reaches_complete (h : InChunks method len true .headersAlmostDone parser)
    (hm : method ∈ sentMethods) (ht : http.httpType = .request) (hs : http.state = .value) :
    Reaches (parser, http) [10] (completed method http) fun _ => True := by
  have hstep : parser.step 10 1 = parser.complete := by
    rw [Parser.step, h.state]
    dsimp only
    rw [Parser.headersAlmostDone, if_neg (by decide), if_pos h.trailing]
  refine .one parser.newMessage ((h.byte_eq (.inr rfl) rfl).trans ?_) trivial
  rw [hstep, Parser.complete, Parser.settled_callback2, callback_complete hm h.method ht hs]
  rfl

/-- The blank line in front of the chunks. -/
theorem InHeader.reaches_chunks {framing : Framing}
    (h : InHeader method framing n .headersAlmostDone parser) (hr : http.Ready)
    (ht : http.httpType = .request) (hm : method ∈ sentMethods) (hn : n < maxHeaderSize)
    (hc : framing.chunked = true) : Reaches (parser, http) [10] (headerRead http)
      (InChunks method framing.length false .chunkSizeStart) := by
  obtain ⟨p, hp, heq⟩ := h.byte_blank hr ht hm hn
  refine .one (p.goto .chunkSizeStart) (heq.trans ?_)
    ⟨rfl, hp.method, hp.chunked.trans hc, hp.trailing, hp.contentLength⟩
  rw [Parser.beginBody, hp.upgraded, hp.skipbody, hp.chunked, hc]
  rfl

end Wire

/-! ## The whole request -/

namespace SentRequest

/-- What is sent of a request whose body is written in chunks. -/
def chunkedText (r : SentRequest) (chunks : List Bytes) : Bytes :=
  r.header ++ bytes "\r\n" ++
    (chunks.flatMap fun bs => HttpUtils.writeChunk (some bs) bs.length) ++ HttpUtils.writeLastChunk

/-- A request whose body can be sent in these chunks. -/
structure Chunked (r : SentRequest) (chunks : List Bytes) : Prop where
  line : r.IsLine
  fields : ∃ size < 2 ^ 63, ∀ e ∈ r.headers, Wire.IsField size e ∨ Wire.IsChunked e
  chunked : ∃ e ∈ r.headers, Wire.IsChunked e
  body : chunks.flatten = r.body
  chunks : ∀ bs ∈ chunks, bs ≠ [] ∧ bs.length < 2 ^ 31
  short : r.header.length + 2 ≤ maxHeaderSize

end SentRequest

namespace Wire

variable {r : SentRequest} {reads chunks : List Bytes}

/-- A body that is sent in chunks is received as a whole, however the chunks are cut, and the request
however it is cut into reads. -/
theorem receive_chunkedText (parser : Parser) (hr : r.Chunked chunks) (hne : [] ∉ reads)
    (hreads : reads.flatten = r.chunkedText chunks) :
    receive parser reads = some (some r.received) := by
  have hready : r.collected.Ready := r.ready_lineRead.foldl r.headers
  have hshort := hr.short
  have hheaders : r.headers ≠ [] := by
    obtain ⟨e, he, -⟩ := hr.chunked
    exact List.ne_nil_of_mem he
  have hcrlf : bytes "\r\n" = [13, 10] := by decide
  obtain ⟨size, hsize, hfields⟩ := hr.fields
  have hchunked : (r.headers.foldl (told size) ⟨-1, false⟩).chunked = true := by
    obtain ⟨e, he, hasks⟩ := hr.chunked
    exact (chunked_foldl_told size r.headers _).mpr (.inr ⟨e, he, hasks.transferEncoding⟩)
  have hfront : Reaches (parser.init .request, .new .request)
      (r.header ++ [13] ++ ([10] ++ ((chunks.flatMap fun bs =>
        HttpUtils.writeChunk (some bs) bs.length) ++ [48, 13, 10, 13])))
      (withBody (headerRead r.collected) r.body)
      (InChunks r.method 0 true .headersAlmostDone) := by
    refine (reaches_header parser hr.line hfields hsize hshort).append fun p h => ?_
    refine (h.reaches_chunks hready r.httpType_collected hr.line.method (by omega) hchunked).append
      fun p h => ?_
    rw [← hr.body]
    exact (h.reaches_chunks hr.chunks).append fun p h => h.choose_spec.reaches_lastChunk
  have hflat : reads.flatten = r.header ++ [13] ++ ([10] ++ ((chunks.flatMap fun bs =>
      HttpUtils.writeChunk (some bs) bs.length) ++ [48, 13, 10, 13])) ++ [10] := by
    rw [hreads, SentRequest.chunkedText, HttpUtils.writeLastChunk_eq, hcrlf]
    simp
  obtain ⟨parser', hread⟩ := readRequest_of_reaches parser 10 hne hflat hfront
    r.doneParsing_headerRead (fun p h => h.reaches_complete hr.line.method
      ((HTTP.httpType_settled _).trans r.httpType_collected) (r.state_settled_collected hheaders)) rfl
  rw [receive, hread, SentRequest.completed_collected hheaders]
  rfl

/-- A body in two chunks. -/
theorem receive_twoChunks : ∃ r : SentRequest, r.body = [120, 121] ∧
    receive memory [r.chunkedText [[120], [121]]] = some (some r.received) := by
  let e : Bytes × Bytes := (bytes "Transfer-Encoding", bytes "Chunked")
  let r : SentRequest := ⟨.put, bytes "/a", none, [e], [120, 121]⟩
  have he : IsChunked e :=
    { token := List.all_iff_forall_prop.mp
        (show ((bytes "Transfer-Encoding").all fun c => decide (token c ≠ 0)) = true by decide)
      transferEncoding :=
        .of_eq (show (bytes "Transfer-Encoding").map token = bytes "transfer-encoding" by decide)
      chunked := show (bytes "Chunked").map acceptableHeader = bytes "chunked" by decide }
  have hr : r.Chunked [[120], [121]] :=
    { line := ⟨by decide, (by decide : (bytes "/a").head? = some 47), List.all_iff_forall_prop.mp
        (show ((bytes "/a").all fun c => decide (normalUrlChar c = true)) = true by decide), nofun⟩
      fields := ⟨0, by decide, fun e' he' => .inr (List.mem_singleton.mp he' ▸ he)⟩
      chunked := ⟨e, List.mem_singleton_self e, he⟩
      body := rfl
      chunks := by decide
      short := by decide +kernel }
  exact ⟨r, rfl, receive_chunkedText memory hr (by decide +kernel) (List.flatten_singleton)⟩

end Wire

end Gunrock
