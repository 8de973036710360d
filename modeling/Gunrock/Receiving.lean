import Gunrock.Feeding
import Gunrock.Library.Incremental

/-!
# Reading from the socket

`HTTPRequest::readRequest` and `HTTPRequest::onRead`, over `HTTP::addData` and the parser.  The
server reads until the request is complete, and every assertion on the way is the end of it: one that
fails because the parser does not take a byte, and one that fails because there are bytes behind the
request.

A request may be cut into reads anywhere (`Wire.receive_eq`), with one exception.  The parser stops
in front of the last byte of a `CONNECT`, and `onRead` lets that byte go if it comes in the same read
as the one before it, or else finds that nothing was taken.
-/

namespace Gunrock

/-! ## The object puts its pieces together -/

namespace HTTP

variable {http http' : HTTP}

/-- The callback for a piece. -/
def piece : Piece → Bytes → HTTP → Option HTTP
  | .headerField, str, http => http.headerFieldCb str
  | .headerValue, str, http => http.headerValueCb str
  | .fragment, _, _ => none
  | .queryString, str, http => some { http with query := http.query ++ str }
  | .path, str, http => some { http with path := http.path ++ str }
  | .url, str, http => some { http with url := http.url ++ str }

/-- The callback for a piece of the body. -/
def bodyPiece (str : Bytes) (http : HTTP) : Option HTTP :=
  some { http with body := http.body ++ str }

theorem headerFieldCb_append (x y : Bytes) (http : HTTP) :
    (http.headerFieldCb x).bind (headerFieldCb · y) = http.headerFieldCb (x ++ y) := by
  unfold headerFieldCb
  by_cases hf : http.state = .field
  · cases hfield : http.field with
    | none => simp [hf, appendHeaderField, hfield]
    | some field => simp [hf, appendHeaderField, hfield]
  · by_cases hv : http.state = .value ∨ http.state = .header
    · cases ha : http.addHeaderField with
      | none => simp [hf, hv, newHeaderField, ha]
      | some http' => simp [hf, hv, newHeaderField, appendHeaderField, ha]
    · simp [hf, hv]

theorem headerValueCb_append (x y : Bytes) (http : HTTP) :
    (http.headerValueCb x).bind (headerValueCb · y) = http.headerValueCb (x ++ y) := by
  unfold headerValueCb
  cases hvalue : http.value with
  | none =>
      by_cases hf : http.state = .field <;> by_cases hv : http.state = .value <;>
        simp [hf, hv, appendHeaderValue, hvalue]
  | some value =>
      by_cases hf : http.state = .field <;> by_cases hv : http.state = .value <;>
        simp [hf, hv, appendHeaderValue, hvalue]

/-- The url is kept apart from the header fields. -/
theorem headerFieldCb_url (x y : Bytes) (http : HTTP) :
    { http with url := http.url ++ x }.headerFieldCb y =
      (http.headerFieldCb y).map fun http => { http with url := http.url ++ x } := by
  unfold headerFieldCb newHeaderField appendHeaderField addHeaderField
  cases http.field <;> cases http.value <;> by_cases hf : http.state = .field <;>
    by_cases hv : http.state = .value ∨ http.state = .header <;> simp [hf, hv]

theorem headerValueCb_url (x y : Bytes) (http : HTTP) :
    { http with url := http.url ++ x }.headerValueCb y =
      (http.headerValueCb y).map fun http => { http with url := http.url ++ x } := by
  unfold headerValueCb appendHeaderValue
  cases hvalue : http.value <;> by_cases hf : http.state = .field <;>
    by_cases hv : http.state = .value <;> simp [hf, hv, hvalue]

theorem collects : Collects callback piece bodyPiece where
  settings_piece parser http k str := by cases k <;> rfl
  settings_body parser http str := rfl
  piece_append k x y http := by
    cases k with
    | headerField => exact headerFieldCb_append x y http
    | headerValue => exact headerValueCb_append x y http
    | fragment => rfl
    | queryString | path | url => simp [piece]
  url_comm {k} hk x y http := by
    cases k with
    | headerField =>
        refine (headerFieldCb_url x y http).trans ?_
        cases h : http.headerFieldCb y <;> simp [piece, h]
    | headerValue =>
        refine (headerValueCb_url x y http).trans ?_
        cases h : http.headerValueCb y <;> simp [piece, h]
    | fragment | queryString | path => rfl
    | url => exact absurd rfl hk
  body_append x y http := by simp [bodyPiece]

/-- A request that is being read. -/
structure Reading (http : HTTP) : Prop where
  httpType : http.httpType = .request
  extraParsedBytes : http.extraParsedBytes = 0

theorem extraParsedBytes_addHeaderField (h : http.addHeaderField = some http') :
    http'.extraParsedBytes = http.extraParsedBytes := by
  rw [addHeaderField] at h
  split at h <;> cases h <;> rfl

/-- What a callback does where it returns: the event, the return value and the object. -/
inductive Called (parser : HttpParser) (http : HTTP) : HttpEvent → Int → HTTP → Prop
  | messageBegin (hstate : http.state = .init) :
      Called parser http .messageBegin 0 { http with state := .header }
  | url (str : Bytes) : Called parser http (.url str) 0 { http with url := http.url ++ str }
  | path (str : Bytes) : Called parser http (.path str) 0 { http with path := http.path ++ str }
  | queryString (str : Bytes) :
      Called parser http (.queryString str) 0 { http with query := http.query ++ str }
  | moreField {field : Bytes} (str : Bytes) (hstate : http.state = .field)
      (hfield : http.field = some field) :
      Called parser http (.headerField str) 0 { http with field := some (field ++ str) }
  | newField {http₁ : HTTP} (str : Bytes) (hstate : http.state = .value ∨ http.state = .header)
      (hadd : http.addHeaderField = some http₁) : Called parser http (.headerField str) 0
        { http₁ with field := some str, value := some [], state := .field }
  | headerValue {value : Bytes} (str : Bytes) (hstate : http.state = .field ∨ http.state = .value)
      (hvalue : http.value = some value) : Called parser http (.headerValue str) 0
        { http with state := .value, value := some (value ++ str) }
  | headersComplete {http₁ : HTTP} (hadd : http.addHeaderField = some http₁) :
      Called parser http .headersComplete 0 { http₁ with headerDone := true }
  /-- The end of the headers of a response. -/
  | reply {http₁ : HTTP} (statusStr : String) (hadd : http.addHeaderField = some http₁)
      (htype : http₁.httpType = .response) : Called parser http .headersComplete (-1)
        { http₁ with headerDone := true, statusStr := statusStr, extraParsedBytes := 1 }
  | body (str : Bytes) : Called parser http (.body str) 0 { http with body := http.body ++ str }
  | messageComplete (hmethod : parser.method ∈ [.get, .connect, .post, .head, .put, .delete, .move]) :
      Called parser http .messageComplete 0
        { http with state := .done, method := some parser.method, doneParsing := true }
  /-- The end of a response. -/
  | replyComplete (htype : http.httpType ≠ .request) :
      Called parser http .messageComplete 0 { http with state := .done, doneParsing := true }

section Callbacks

variable {parser : HttpParser} {e : HttpEvent} {ret : Int} {str : Bytes}

theorem called_headerField (h : http.headerFieldCb str = some http') :
    Called parser http (.headerField str) 0 http' := by
  rw [headerFieldCb] at h
  split at h
  · rename_i hstate
    obtain ⟨field, hfield, hout⟩ := Option.bind_eq_some_iff.mp h
    cases hout
    exact .moreField str hstate hfield
  · split at h
    · rename_i hstate
      obtain ⟨http₂, hnew, hout⟩ := Option.bind_eq_some_iff.mp h
      obtain ⟨http₁, hadd, hnew⟩ := Option.bind_eq_some_iff.mp hnew
      cases hout
      cases hnew
      exact (Called.newField str hstate hadd :)
    · cases h

theorem called_headerValue (h : http.headerValueCb str = some http') :
    Called parser http (.headerValue str) 0 http' := by
  rw [headerValueCb] at h
  split at h
  · rename_i hstate
    obtain ⟨value, hvalue, hout⟩ := Option.bind_eq_some_iff.mp h
    cases hout
    exact .headerValue str (.inl hstate) hvalue
  · split at h
    · rename_i hstate
      obtain ⟨value, hvalue, hout⟩ := Option.bind_eq_some_iff.mp h
      cases hout
      have hsame : { http with value := some (value ++ str) } =
          { http with state := .value, value := some (value ++ str) } := by rw [← hstate]
      rw [hsame]
      exact .headerValue str (.inr hstate) hvalue
    · cases h

theorem called (h : http.callback parser e = some (ret, http')) : Called parser http e ret http' := by
  cases e with
  | messageBegin =>
      obtain ⟨http₁, hsome, hout⟩ := Option.map_eq_some_iff.mp h
      cases hout
      rw [messageBeginCb] at hsome
      split at hsome
      · rename_i hstate
        cases hsome
        exact .messageBegin hstate
      · cases hsome
  | url str =>
      cases h
      exact .url str
  | path str =>
      cases h
      exact .path str
  | queryString str =>
      cases h
      exact .queryString str
  | fragment str => cases h
  | headerField str =>
      obtain ⟨http₁, hsome, hout⟩ := Option.map_eq_some_iff.mp h
      cases hout
      exact called_headerField hsome
  | headerValue str =>
      obtain ⟨http₁, hsome, hout⟩ := Option.map_eq_some_iff.mp h
      cases hout
      exact called_headerValue hsome
  | headersComplete =>
      obtain ⟨http₁, hadd, hout⟩ := Option.bind_eq_some_iff.mp h
      dsimp only at hout
      split at hout
      · rename_i htype
        obtain ⟨words, -, hout⟩ := Option.bind_eq_some_iff.mp hout
        cases hout
        exact .reply _ hadd htype
      · cases hout
        exact .headersComplete hadd
  | body str =>
      cases h
      exact .body str
  | messageComplete =>
      obtain ⟨http₁, hsome, hout⟩ := Option.map_eq_some_iff.mp h
      cases hout
      rw [messageCompleteCb] at hsome
      split at hsome
      · rw [HTTP.messageComplete] at hsome
        split at hsome
        · split at hsome
          · rename_i hmethod
            cases hsome
            exact .messageComplete hmethod
          · cases hsome
        · rename_i htype
          cases hsome
          exact .replyComplete htype
      · cases hsome

/-- Only a response leaves bytes to the caller. -/
theorem extraParsedBytes_callback (ht : http.httpType = .request)
    (h : http.callback parser e = some (ret, http')) :
    http'.extraParsedBytes = http.extraParsedBytes := by
  cases called h with
  | newField str hstate hadd => exact (extraParsedBytes_addHeaderField hadd :)
  | headersComplete hadd => exact (extraParsedBytes_addHeaderField hadd :)
  | reply statusStr hadd htype =>
      rw [(httpType_addHeaderField hadd).1, ht] at htype
      cases htype
  | _ => rfl

theorem doneParsing_messageComplete (h : http.callback parser .messageComplete = some (ret, http')) :
    http'.doneParsing = true := by
  cases called h <;> rfl

end Callbacks

/-- While a request is read no callback but the last stops the parser. -/
theorem ends : Ends callback Reading (·.doneParsing = true) where
  keeps {_ _ _ e _} hP h := by
    obtain ⟨-, htype, hdone⟩ := callback_request hP.httpType h
    refine ⟨⟨htype, (extraParsedBytes_callback hP.httpType h).trans hP.extraParsedBytes⟩, ?_⟩
    intro hd
    by_cases he : e = .messageComplete
    · subst he
      exact doneParsing_messageComplete h
    · exact (hdone he).trans hd
  complete _ h := doneParsing_messageComplete h
  nonzero hP h hret := absurd (callback_request hP.httpType h).1 hret

def isConnect (http : HTTP) : Bool := http.method = some .connect

end HTTP

/-! ## Reads -/

namespace Wire

/-- `HTTP::addData`, with the parser that the object holds.  It must not be called once the message
is done. -/
def addData (data : Bytes) (s : Parser × HTTP) : Option (Int × Parser × HTTP) :=
  if s.2.doneParsing then none
  else (s.1.execute HTTP.callback data s.2).map fun (count, parser, http) =>
    (count + http.extraParsedBytes, parser, { http with extraParsedBytes := 0 })

/-- The loop of `onRead`, over the bytes that are left; each round takes at least one of them. -/
def onReadLoop : Nat → Bytes → Parser × HTTP → Option (Parser × HTTP)
  | 0, _, s => some s
  | n + 1, data, s =>
    if data = [] then some s
    else if s.2.isDone then none
    else do
      let (ret, s) ← addData data s
      if ret ≤ 0 then none
      else
        let rest := data.drop ret.toNat
        if s.2.isDone ∧ rest ≠ [] then
          if s.2.isConnect ∧ rest = [10] then some s else none
        else onReadLoop n rest s

/-- `HTTPRequest::onRead` -/
def onRead (data : Bytes) (s : Parser × HTTP) : Option (Parser × HTTP) :=
  if data = [] then none else onReadLoop data.length data s

/-- `HTTPRequest::readRequest`, until the socket has no more reads and throws. -/
def readRequest (reads : List Bytes) (s : Parser × HTTP) : Option (Option (Parser × HTTP)) :=
  if s.2.isDone then none else Incremental.readAll onRead (·.2.isDone) reads s

/-- What a new object gets out of the reads; `parser` is what is in its memory. -/
def receive (parser : Parser) (reads : List Bytes) : Option (Option HTTP) :=
  (readRequest reads (parser.init .request, .new .request)).map (·.map Prod.snd)

/-- One byte of a request. -/
def byte (s : Parser × HTTP) (ch : UInt8) : Option (Parser × HTTP) :=
  Parser.byte HTTP.piece HTTP.callback HTTP.bodyPiece s ch

/-- What becomes of a request, byte by byte. -/
def fate (s : Parser × HTTP) (data : Bytes) : Incremental.Fate (Parser × HTTP) UInt8 :=
  Incremental.fate byte (·.2.isDone) s data

variable {s s' : Parser × HTTP} {data : Bytes} {ch : UInt8}

/-- Between two reads of a request. -/
structure Between (s : Parser × HTTP) : Prop where
  settled : Settled HTTP.piece s
  reading : s.2.Reading

theorem Between.byte (h : Between s) (hs : byte s ch = some s') : Between s' :=
  ⟨settled_byte HTTP.collects hs, Parser.keeps_byte HTTP.collects HTTP.ends h.reading hs⟩

theorem Between.new (parser : Parser) : Between (parser.init .request, .new .request) := by
  refine ⟨fun k hk => ?_, rfl, rfl⟩
  cases k <;> cases hk

theorem addData_eq {count : Nat} {parser : Parser} {http : HTTP} (hdone : s.2.isDone = false)
    (hexec : s.1.execute HTTP.callback data s.2 = some (count, parser, http))
    (hextra : http.extraParsedBytes = 0) : addData data s = some ((count : Int), parser, http) := by
  have hdone' : ¬ s.2.doneParsing = true := by simpa [HTTP.isDone] using hdone
  have hsame : { http with extraParsedBytes := 0 } = http := HTTP.ext rfl rfl rfl rfl rfl rfl rfl rfl
    rfl rfl rfl rfl rfl rfl hextra.symm
  rw [addData, if_neg hdone', hexec]
  exact congrArg some (Prod.ext (by simp [hextra]) (Prod.ext rfl hsame))

/-- A read of which all bytes are taken. -/
theorem Between.onRead (h : Between s) (hne : data ≠ []) (hdone : s.2.isDone = false)
    (hs : data.foldlM Wire.byte s = some s') : Wire.onRead data s = some s' := by
  obtain ⟨parser, http⟩ := s'
  have hfeed : feed HTTP.callback data s = some (parser, http) :=
    (h.settled.feed_eq HTTP.collects hne).trans hs
  have hexec : s.1.execute HTTP.callback data s.2 = some (data.length, parser, http) := by
    obtain ⟨⟨count, s₁⟩, hexec, hcount⟩ := Option.bind_eq_some_iff.mp hfeed
    split at hcount
    · rename_i hall
      cases hcount
      obtain rfl : count = data.length := hall
      exact hexec
    · cases hcount
  have hreading := (Parser.ends_execute HTTP.collects HTTP.ends hne h.reading hexec).keeps
  have hadd := addData_eq hdone hexec hreading.extraParsedBytes
  obtain ⟨n, hn⟩ := Nat.exists_eq_succ_of_ne_zero (List.length_pos_iff.mpr hne).ne'
  have hpos : ¬ (data.length : Int) ≤ 0 := by omega
  rw [Wire.onRead, if_neg hne, hn, onReadLoop, if_neg hne, if_neg (by simp [hdone])]
  simp only [hadd, Option.bind_eq_bind, Option.bind_some, if_neg hpos, Int.toNat_natCast,
    List.drop_length, ne_eq, not_true_eq_false, and_false, if_false]
  cases n <;> rfl

/-- Once the parser is dead nothing more is taken. -/
theorem onReadLoop_dead {n : Nat} (hn : data.length ≤ n) (hne : data ≠ [])
    (hdead : s.1.state = .dead) (hs : s.2.extraParsedBytes = 0) : onReadLoop n data s = none := by
  have hpos := List.length_pos_iff.mpr hne
  obtain ⟨m, rfl⟩ := Nat.exists_eq_succ_of_ne_zero (show n ≠ 0 by omega)
  obtain ⟨parser, hexec⟩ : ∃ parser, s.1.execute HTTP.callback data s.2 = some (0, parser, s.2) :=
    Parser.execute_dead hdead hne
  rw [onReadLoop, if_neg hne]
  split
  · rfl
  · rename_i hdone
    rw [addData_eq (by simpa using hdone) hexec hs]
    rfl

/-- A read with a byte that is not taken is the end of the server, but for the last byte of a
`CONNECT`. -/
theorem Between.isConnect (h : Between s) (hne : data ≠ []) (hs : data.foldlM Wire.byte s = none)
    (hread : Wire.onRead data s = some s') : s'.2.isDone = true ∧ s'.2.isConnect = true := by
  obtain ⟨n, hn⟩ := Nat.exists_eq_succ_of_ne_zero (List.length_pos_iff.mpr hne).ne'
  rw [Wire.onRead, if_neg hne, hn, onReadLoop, if_neg hne] at hread
  split at hread
  · cases hread
  rename_i hdone
  have hexec : ∃ count parser http, s.1.execute HTTP.callback data s.2 = some (count, parser, http) := by
    obtain ⟨out, hadd, -⟩ := Option.bind_eq_some_iff.mp hread
    rw [addData] at hadd
    split at hadd
    · cases hadd
    · obtain ⟨⟨count, parser, http⟩, hexec, -⟩ := Option.map_eq_some_iff.mp hadd
      exact ⟨count, parser, http, hexec⟩
  obtain ⟨count, parser, http, hexec⟩ := hexec
  have hlt : count < data.length := by
    refine lt_of_le_of_ne (Parser.execute_le HTTP.collects hexec) fun hall => ?_
    have hfeed := h.settled.feed_eq HTTP.collects hne
    rw [feed, hexec, Option.bind_some, if_pos hall] at hfeed
    exact Option.some_ne_none _ (hfeed.trans hs)
  have hended := Parser.ends_execute HTTP.collects HTTP.ends hne h.reading hexec
  have hrest : data.drop count ≠ [] := by simpa using hlt
  rw [addData_eq (by simpa using hdone) hexec hended.keeps.extraParsedBytes, Option.bind_eq_bind,
    Option.bind_some] at hread
  dsimp only at hread
  rw [Int.toNat_natCast] at hread
  split at hread
  · cases hread
  rename_i hcount
  split at hread
  · rename_i hdone
    split at hread
    · rename_i hconnect
      cases hread
      exact ⟨hdone.1, hconnect.1⟩
    · cases hread
  · rename_i hdone
    have hdead : parser.state = .dead := by
      by_contra hstate
      exact hdone ⟨hended.done ⟨hlt.ne, hstate⟩, hrest⟩
    have hle : (data.drop count).length ≤ n := by
      rw [List.length_drop]
      omega
    rw [onReadLoop_dead hle hrest hdead hended.keeps.extraParsedBytes] at hread
    cases hread

/-- What is read is read byte by byte. -/
theorem readsAs : Incremental.ReadsAs onRead (·.2.isDone) byte Between (·.2.isConnect = true) where
  keeps h hs := h.byte hs
  stays h hdone hs := (Parser.keeps_byte HTTP.collects HTTP.ends.and ⟨h.reading, hdone⟩ hs).2
  reads h hne hdone hs := h.onRead hne hdone hs
  saved {s s' data} h hne hread := by
    cases hs : data.foldlM byte s with
    | none => exact .inr (h.isConnect hne hs hread)
    | some s₁ =>
        cases hdone : s.2.isDone with
        | true =>
            obtain ⟨n, hn⟩ := Nat.exists_eq_succ_of_ne_zero (List.length_pos_iff.mpr hne).ne'
            rw [Wire.onRead, if_neg hne, hn, onReadLoop, if_neg hne, if_pos hdone] at hread
            cases hread
        | false => exact .inl ((h.onRead hne hdone hs).symm.trans hread)

end Wire

/-! ## Requests in any reads -/

namespace Wire

variable {parser : Parser} {reads reads' : List Bytes} {data : Bytes} {http : HTTP}

theorem receive_eq (parser : Parser) (hne : [] ∉ reads) :
    receive parser reads = (Incremental.readAll onRead (·.2.isDone) reads
      (parser.init .request, .new .request)).map (·.map Prod.snd) ∧
    (fate (parser.init .request, .new .request) reads.flatten).Allows (·.2.isConnect = true)
      (Incremental.readAll onRead (·.2.isDone) reads (parser.init .request, .new .request)) :=
  ⟨rfl, readsAs.readAll_eq (.new parser) hne⟩

/-- No request is complete before the end of `data`. -/
def NothingBehind (parser : Parser) (data : Bytes) : Prop :=
  ∀ bs more, data = bs ++ more → more ≠ [] → ∀ http, receive parser [bs] ≠ some (some http)

/-- However a request is cut into reads, the same comes of it, unless it is a `CONNECT`. -/
theorem receive_same (parser : Parser) (hne : [] ∉ reads) (hne' : [] ∉ reads')
    (hsame : reads.flatten = reads'.flatten) (hend : NothingBehind parser reads.flatten) :
    receive parser reads = receive parser reads' ∨ ∃ http, http.isConnect = true ∧
      (receive parser reads = some (some http) ∨ receive parser reads' = some (some http)) := by
  obtain ⟨hreads, hout⟩ := receive_eq parser hne
  obtain ⟨hreads', hout'⟩ := receive_eq parser hne'
  rw [hreads, hreads']
  rw [← hsame] at hout'
  cases hf : fate (parser.init .request, .new .request) reads.flatten with
  | dead =>
      rw [hf] at hout hout'
      rcases hout with hout | ⟨s, hs, hout⟩
      · rcases hout' with hout' | ⟨s', hs', hout'⟩
        · exact .inl (by rw [hout, hout'])
        · exact .inr ⟨s'.2, hs', .inr (by rw [hout']; rfl)⟩
      · exact .inr ⟨s.2, hs, .inl (by rw [hout]; rfl)⟩
  | waiting s =>
      rw [hf] at hout hout'
      exact .inl (congrArg _ (Eq.trans hout (Eq.symm hout')))
  | finished s rest =>
      obtain ⟨bs, hbs, hfinished⟩ := Incremental.fate_of_finished hf
      have hrest : rest = [] := by
        by_contra hrest
        have hbsne : [] ∉ [bs] := by
          rw [List.mem_singleton]
          rintro rfl
          cases hfinished
        obtain ⟨hbsreads, hbsout⟩ := receive_eq parser hbsne
        rw [List.flatten_singleton, fate, hfinished] at hbsout
        exact hend bs rest hbs hrest s.2 (by rw [hbsreads, hbsout.1 rfl]; rfl)
      rw [hf] at hout hout'
      exact .inl (by rw [hout.1 hrest, hout'.1 hrest])

/-- Memory that no parser has been in. -/
def memory : Parser := ⟨⟨0, 0, 0, .get⟩, .both, {}, .dead, .general, 0, 0, 0, false⟩

/-- A request. -/
def sample : Bytes := Text.bytes "PUT /a HTTP/1.1\r\nContent-Length: 1\r\n\r\nx"

/-- The parser takes the request, in one read or two. -/
theorem feed_sample :
    (feed HTTP.callback sample (memory.init .request, .new .request)).isSome = true ∧
    feed HTTP.callback sample (memory.init .request, .new .request) =
      (feed HTTP.callback (sample.take 9) (memory.init .request, .new .request)).bind
        (feed HTTP.callback (sample.drop 9)) := by
  have hs : Settled HTTP.piece (memory.init .request, HTTP.new .request) := fun k hk => by
    cases k <;> cases hk
  have htake : sample.take 9 ≠ [] := by decide +kernel
  have hdrop : sample.drop 9 ≠ [] := by decide +kernel
  have happend := hs.feed_append HTTP.collects htake hdrop
  rw [List.take_append_drop] at happend
  exact ⟨by decide +kernel, happend⟩

/-- The request in three reads. -/
theorem receive_sample :
    receive memory [sample.take 9, (sample.drop 9).take 9, sample.drop 18] =
      receive memory [sample] := by
  have hnone : ∀ n < sample.length, (receive memory [sample.take n]).join.isNone = true := by
    decide +kernel
  have hend : NothingBehind memory
      [sample.take 9, (sample.drop 9).take 9, sample.drop 18].flatten := by
    intro bs more hdata hmore http hreceive
    have hflat : [sample.take 9, (sample.drop 9).take 9, sample.drop 18].flatten = sample := by
      decide +kernel
    rw [hflat] at hdata
    have hlen : bs.length < sample.length := by
      rw [hdata, List.length_append]
      have := List.length_pos_iff.mpr hmore
      omega
    have hbs : sample.take bs.length = bs := by rw [hdata, List.take_left]
    have hno := hnone bs.length hlen
    rw [hbs, hreceive] at hno
    cases hno
  refine (receive_same memory (by decide +kernel) (by decide +kernel) (by decide +kernel)
    hend).resolve_right ?_
  have hall : ∀ reads ∈ [[sample.take 9, (sample.drop 9).take 9, sample.drop 18], [sample]],
      ((receive memory reads).join.all fun http => !http.isConnect) = true := by decide +kernel
  rintro ⟨http, hc, h | h⟩
  · have hno := hall _ List.mem_cons_self
    rw [h] at hno
    simp [hc] at hno
  · have hno := hall _ (List.mem_cons_of_mem _ List.mem_cons_self)
    rw [h] at hno
    simp [hc] at hno

end Wire

end Gunrock
