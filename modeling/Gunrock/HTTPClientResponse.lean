import Gunrock.DistributedFileSystemService
import Gunrock.Library.SortedMap
import Gunrock.Library.Text
import Mathlib.Data.Bool.AllAny

/-!
# Responses on the wire

`HTTPResponse::response`, which the server sends, and `HTTPClientResponse.cpp`, which reads it.
The client looks for the first empty line of what it has read, and for the status in the lines
before it.  It finds them as long as no header contains a line end or looks like a status
(`readResponse_response`).
-/

namespace Gunrock

open Text

/-! ## Sending -/

/-- `HTTPResponse` with the fields that only its encoding reads. -/
structure WireResponse extends HTTPResponse where
  streaming : Bool := false
  headers : SortedMap Bytes Bytes :=
    SortedMap.empty.insert (bytes "Server") (bytes "Gunrock Web")
  contentType : Bytes := bytes "text/html; charset=ISO-8859-1"

namespace WireResponse

variable (r : WireResponse)

def setHeader (name value : Bytes) : WireResponse :=
  { r with headers := r.headers.insert name value }

def statusToString : Bytes :=
  if r.status = 200 then bytes "OK" else bytes "Unknown"

/-- The response with the headers that `response` sets. -/
def withHeaders : WireResponse :=
  let r := r.setHeader (bytes "Content-Type") r.contentType
  if r.streaming then r.setHeader (bytes "Transfer-Encoding") (bytes "chunked")
  else r.setHeader (bytes "Content-Length") (decimal r.body.length)

def statusLine : Bytes :=
  bytes "HTTP/1.1 " ++ decimalInt r.status ++ bytes " " ++ r.statusToString

def headerLine (e : Bytes × Bytes) : Bytes := e.1 ++ bytes ": " ++ e.2

def response : Bytes :=
  let r := r.withHeaders
  let out := r.statusLine ++ crlf
  let out := out ++ r.headers.entries.flatMap fun e => headerLine e ++ crlf
  let out := out ++ crlf
  if 0 < r.body.length ∧ ¬ r.streaming then out ++ r.body else out

end WireResponse

/-! ## Receiving -/

structure HTTPClientResponse where
  body : Bytes := []
  statusCode : Int := 0
  statusMessage : Bytes := []
deriving DecidableEq, Repr

namespace HTTPClientResponse

variable (c : HTTPClientResponse)

/-- `header_line >> m_status_code >> m_status_message`.  A number that does not fit is replaced
by the nearest one that does, what is not a number by `0`; either ends the reading, and at the
end of the line nothing is stored. -/
def scanStatus (rest : Bytes) : HTTPClientResponse :=
  if rest.dropWhile isSpace = [] then c
  else
    match scanInt rest with
    | none => { c with statusCode := 0 }
    | some (code, rest) =>
      if 2 ^ 31 ≤ code then { c with statusCode := 2 ^ 31 - 1 }
      else if code < -2 ^ 31 then { c with statusCode := -2 ^ 31 }
      else
        match scanWord rest with
        | none => { c with statusCode := code }
        | some (word, _) => { c with statusCode := code, statusMessage := word }

/-- The loop over the lines of the header. -/
def scanLine (line : Bytes) : HTTPClientResponse :=
  if find (bytes "HTTP/1.1 ") line = some 0 ∨ find (bytes "HTTP/1.0") line = some 0 then
    match scanWord line with
    | none => c
    | some (_, rest) => c.scanStatus rest
  else c

/-- `readResponse`, where the reads of the socket return `reads` before one of them throws. -/
def readResponse (reads : List Bytes) : HTTPClientResponse × Bytes :=
  let fullResponse := reads.flatten
  match find (crlf ++ crlf) fullResponse with
  | none => (c, [])
  | some delimiter =>
    let c := { c with body := fullResponse.drop (delimiter + 4) }
    let c := (getlines 10 (fullResponse.take delimiter)).foldl scanLine c
    (c, c.body)

end HTTPClientResponse

/-! ## What is received -/

/-- The name of a header, which cannot be mistaken for a line end or a status. -/
structure IsName (name : Bytes) : Prop where
  cr : 13 ∉ name
  lf : 10 ∉ name
  not_10 : ¬ bytes "HTTP/1.0" <+: name
  not_11 : ¬ bytes "HTTP/1.1 " <+: name

/-- A name and a value without a line end. -/
structure IsHeader (e : Bytes × Bytes) : Prop where
  name : IsName e.1
  cr : 13 ∉ e.2
  lf : 10 ∉ e.2

variable {r : WireResponse} {c : HTTPClientResponse} {e : Bytes × Bytes} {line : Bytes}

namespace IsHeader

theorem isLine (h : IsHeader e) : IsLine (WireResponse.headerLine e) := by
  have hcolon : (13 : UInt8) ∉ bytes ": " ∧ (10 : UInt8) ∉ bytes ": " := by decide
  refine ⟨?_, ?_, ?_⟩
  · rw [WireResponse.headerLine, List.append_assoc]
    exact List.append_ne_nil_of_right_ne_nil _ (List.cons_ne_nil _ _)
  · simp [WireResponse.headerLine, h.name.cr, h.cr, hcolon.1]
  · simp [WireResponse.headerLine, h.name.lf, h.lf, hcolon.2]

/-- A line with a header is passed over. -/
theorem scanLine (h : IsHeader e)
    (hline : line = WireResponse.headerLine e ∨ line = WireResponse.headerLine e ++ [13]) :
    c.scanLine line = c := by
  obtain ⟨s, rfl⟩ : ∃ s, line = e.1 ++ 58 :: s := by
    rcases hline with rfl | rfl
    · exact ⟨32 :: e.2, List.append_assoc _ _ _⟩
    · exact ⟨32 :: (e.2 ++ [13]), by
        rw [WireResponse.headerLine, List.append_assoc, List.append_assoc]
        rfl⟩
  rw [HTTPClientResponse.scanLine, if_neg]
  rintro (hfind | hfind)
  · exact h.name.not_11 (prefix_of_append_cons (by decide) (prefix_of_find hfind))
  · exact h.name.not_10 (prefix_of_append_cons (by decide) (prefix_of_find hfind))

theorem foldl_scanLine {es : List (Bytes × Bytes)} (hes : ∀ e ∈ es, IsHeader e)
    {lines : List Bytes} (h : List.Forall₂ (fun x line => line = x ∨ line = x ++ [13])
      (es.map WireResponse.headerLine) lines) :
    lines.foldl HTTPClientResponse.scanLine c = c := by
  induction es generalizing lines with
  | nil =>
      cases h
      rfl
  | cons e es ih =>
      obtain ⟨he, hes⟩ := List.forall_mem_cons.mp hes
      cases h with
      | cons hline h =>
          rw [List.foldl_cons, he.scanLine hline]
          exact ih hes h

end IsHeader

namespace WireResponse

theorem isLine_statusToString (r : WireResponse) : IsLine r.statusToString := by
  rw [statusToString]
  split
  · exact ⟨by decide, by decide, by decide⟩
  · exact ⟨by decide, by decide, by decide⟩

theorem isLine_statusLine {n : Nat} (hn : r.status = n) : IsLine r.statusLine := by
  have hstatus := r.isLine_statusToString
  have hdigits : ∀ b ∈ decimal n, isDigit b = true := fun b hb => isDigit_of_mem_decimal hb
  have hconst : ∀ b : UInt8, b = 13 ∨ b = 10 → b ∉ bytes "HTTP/1.1 " ∧ b ∉ bytes " " := by
    rintro b (rfl | rfl) <;> decide
  have hnot : ∀ b : UInt8, b = 13 ∨ b = 10 → b ∉ r.statusToString → b ∉ r.statusLine := by
    intro b hb hs hmem
    rw [statusLine, hn, List.mem_append, List.mem_append, List.mem_append] at hmem
    rcases hmem with ((hmem | hmem) | hmem) | hmem
    · exact (hconst b hb).1 hmem
    · have hdigit := hdigits b hmem
      rcases hb with rfl | rfl <;> exact absurd hdigit (by decide)
    · exact (hconst b hb).2 hmem
    · exact hs hmem
  refine ⟨?_, hnot 13 (.inl rfl) hstatus.cr, hnot 10 (.inr rfl) hstatus.lf⟩
  exact List.append_ne_nil_of_right_ne_nil _ hstatus.ne_nil

/-- The status is read from the first line. -/
theorem scanLine_statusLine {n : Nat} (hn : r.status = n) (hlt : n < 2 ^ 31)
    (hline : line = r.statusLine ∨ line = r.statusLine ++ [13]) :
    (c.scanLine line).statusCode = r.status ∧ (c.scanLine line).body = c.body := by
  have hstatus : r.statusLine =
      bytes "HTTP/1.1" ++ 32 :: (decimal n ++ 32 :: r.statusToString) := by
    rw [statusLine, hn, List.append_assoc, List.append_assoc]
    rfl
  obtain ⟨s, rfl⟩ : ∃ s, line = bytes "HTTP/1.1" ++ 32 :: (decimal n ++ 32 :: s) := by
    rcases hline with rfl | rfl
    · exact ⟨r.statusToString, hstatus⟩
    · exact ⟨r.statusToString ++ [13], by simp [hstatus]⟩
  have hfind : find (bytes "HTTP/1.1 ")
      (bytes "HTTP/1.1" ++ 32 :: (decimal n ++ 32 :: s)) = some 0 :=
    find_of_prefix ⟨decimal n ++ 32 :: s, rfl⟩
  have hscan : scanInt (32 :: (decimal n ++ 32 :: s)) = some ((n : Int), 32 :: s) := by
    rw [scanInt_cons (by decide), scanInt_decimal n (by decide)]
  rw [HTTPClientResponse.scanLine, if_pos (.inl hfind),
    scanWord_append (by decide) (List.all_iff_forall_prop.mp (by decide)) (by decide)]
  dsimp only
  rw [HTTPClientResponse.scanStatus, if_neg (skipSpace_ne_nil hscan), hscan]
  dsimp only
  rw [if_neg (by omega), if_neg (by omega), hn]
  split
  · exact ⟨rfl, rfl⟩
  · exact ⟨rfl, rfl⟩

theorem isHeader_withHeaders (hs : r.streaming = false) (hr : ∀ e ∈ r.headers.entries, IsHeader e)
    (ht : 13 ∉ r.contentType ∧ 10 ∉ r.contentType) :
    ∀ e ∈ r.withHeaders.headers.entries, IsHeader e := by
  have hlength : IsName (bytes "Content-Length") := ⟨by decide, by decide, by decide, by decide⟩
  have htype : IsName (bytes "Content-Type") := ⟨by decide, by decide, by decide, by decide⟩
  intro e he
  rw [withHeaders] at he
  simp only [setHeader, hs, Bool.false_eq_true, if_false, SortedMap.insert] at he
  rcases SortedMap.eq_or_mem_of_mem_insertEntry he with rfl | he
  · have hnot : ∀ b : UInt8, isDigit b = false → b ∉ decimal r.body.length := fun b hb hmem => by
      rw [isDigit_of_mem_decimal hmem] at hb
      cases hb
    exact ⟨hlength, hnot 13 (by decide), hnot 10 (by decide)⟩
  · rcases SortedMap.eq_or_mem_of_mem_insertEntry he with rfl | he
    · exact ⟨htype, ht.1, ht.2⟩
    · exact hr e he

theorem response_eq (hs : r.streaming = false) :
    r.response = joinLines r.statusLine (r.withHeaders.headers.entries.map headerLine) ++
      (crlf ++ crlf ++ r.body) := by
  have hbody : r.withHeaders.body = r.body ∧ r.withHeaders.streaming = r.streaming := by
    simp [withHeaders, setHeader, hs]
  have hlines : r.withHeaders.statusLine ++ crlf ++
      (r.withHeaders.headers.entries.flatMap fun e => headerLine e ++ crlf) =
      joinLines r.statusLine (r.withHeaders.headers.entries.map headerLine) ++ crlf := by
    rw [← flatMap_crlf, List.flatMap_cons, List.flatMap_map]
    simp [withHeaders, setHeader, hs, statusLine, statusToString]
  rw [response, hlines, hbody.1, hbody.2, hs]
  split
  · simp only [List.append_assoc]
  · rename_i hnil
    have hnil : r.body = [] := by simpa using hnil
    simp only [hnil, List.append_assoc, List.append_nil]

end WireResponse

/-- The client decodes what the server has encoded, however it is cut into reads. -/
theorem HTTPClientResponse.readResponse_response (c : HTTPClientResponse) (r : WireResponse)
    (hs : r.streaming = false) (h0 : 0 ≤ r.status) (hlt : r.status < 2 ^ 31)
    (hr : ∀ e ∈ r.headers.entries, IsHeader e) (ht : 13 ∉ r.contentType ∧ 10 ∉ r.contentType)
    {reads : List Bytes} (hreads : reads.flatten = r.response) :
    (c.readResponse reads).2 = r.body ∧ (c.readResponse reads).1.body = r.body ∧
      (c.readResponse reads).1.statusCode = r.status := by
  obtain ⟨n, hn⟩ := Int.eq_ofNat_of_zero_le h0
  have hheaders := WireResponse.isHeader_withHeaders hs hr ht
  have hlines : ∀ x ∈ r.statusLine :: r.withHeaders.headers.entries.map WireResponse.headerLine,
      IsLine x := by
    refine List.forall_mem_cons.mpr ⟨WireResponse.isLine_statusLine hn, fun x hx => ?_⟩
    obtain ⟨e, he, rfl⟩ := List.mem_map.mp hx
    exact (hheaders e he).isLine
  rw [readResponse, hreads, WireResponse.response_eq hs, find_joinLines hlines]
  dsimp only
  rw [List.take_left, List.drop_append, List.drop_eq_nil_of_le (Nat.le_add_right _ 4),
    Nat.add_sub_cancel_left, List.nil_append]
  have hdrop : (crlf ++ crlf ++ r.body).drop 4 = r.body := rfl
  rw [hdrop]
  obtain ⟨line, lines, hline, hrest, hcons⟩ := List.forall₂_cons_left_iff.mp
    (getlines_joinLines hlines)
  rw [hcons, List.foldl_cons, IsHeader.foldl_scanLine hheaders hrest]
  obtain ⟨hcode, hbody⟩ := WireResponse.scanLine_statusLine
    (c := { c with body := r.body }) hn (by omega) hline
  exact ⟨hbody, hbody, hcode⟩

/-- A response with an empty line in its body, which arrives in two reads. -/
theorem HTTPClientResponse.readResponse_cut :
    let r : WireResponse := { status := 404, body := [13, 10, 13, 10, 97] }
    let c := ({} : HTTPClientResponse).readResponse [r.response.take 50, r.response.drop 50]
    c.2 = [13, 10, 13, 10, 97] ∧ c.1.body = [13, 10, 13, 10, 97] ∧ c.1.statusCode = 404 := by
  intro r
  have hserver : IsHeader (bytes "Server", bytes "Gunrock Web") :=
    ⟨⟨by decide, by decide, by decide, by decide⟩, by decide, by decide⟩
  refine readResponse_response {} r rfl (by decide) (by decide) (fun e he => ?_)
    ⟨by decide, by decide⟩ ?_
  · rw [List.mem_singleton.mp he]
    exact hserver
  · rw [List.flatten_cons, List.flatten_singleton, List.take_append_drop]

/-- A response with nothing else set. -/
def HTTPResponse.wire (r : HTTPResponse) : WireResponse := { toHTTPResponse := r }

end Gunrock
