import Gunrock.Delivering
import Gunrock.Encoding
import Gunrock.HTTPClientResponse
import Gunrock.Library.SortedMap
import Mathlib.Data.Bool.AllAny

/-!
# The client

`HttpClient.cpp`: a client keeps the header fields of its requests, and sets and removes
`Content-Length` as the bodies require.  So what it has sent before does not matter, and the server
receives what the client is asked to send (`HttpClient.Reached.receive_writeRequest`).
-/

namespace Gunrock

open Text

/-- `HttpClient`, without its connection. -/
structure HttpClient where
  headers : SortedMap Bytes Bytes

namespace HttpClient

/-- `"Content-Length"` -/
def contentLength : Bytes := bytes "Content-Length"

def setHeader (client : HttpClient) (key value : Bytes) : HttpClient :=
  { client with headers := client.headers.insert key value }

/-- The constructor. -/
def new (inetAddr : Bytes) (port : Int) : HttpClient :=
  let client : HttpClient := ⟨.empty⟩
  let client := client.setHeader (bytes "Host") (inetAddr ++ bytes ":" ++ decimalInt port)
  let client := client.setHeader (bytes "User-Agent") (bytes "Gunrock/1.0")
  let client := client.setHeader (bytes "Accept") (bytes "*/*")
  client.setHeader (bytes "Connection") (bytes "close")

/-- `set_basic_auth`, for a number of passes of the loop that encodes. -/
def setBasicAuth (client : HttpClient) (username password : Bytes) (passes : Nat) :
    Progress HttpClient :=
  let userPass := username ++ bytes ":" ++ password
  match Base64.bytesToBase64 userPass userPass.length passes with
  | .running => .running
  | .throws e => .throws e
  | .returned s => .returned (client.setHeader (bytes "Authorization") (bytes "Basic " ++ s))

/-- The client whose header fields tell the length of the body. -/
def telling (client : HttpClient) (body : Bytes) : HttpClient :=
  if 0 < body.length then client.setHeader contentLength (decimal body.length)
  else { client with headers := client.headers.erase contentLength }

/-- `write_request`: the client that is left, and what is written to the connection. -/
def writeRequest (client : HttpClient) (path method body : Bytes) : HttpClient × Bytes :=
  let client := client.telling body
  let request := method ++ bytes " " ++ path ++ bytes " HTTP/1.1\r\n"
  let request := request ++ client.headers.entries.flatMap fun e =>
    e.1 ++ bytes ": " ++ e.2 ++ bytes "\r\n"
  let request := request ++ bytes "\r\n"
  (client, if 0 < body.length then request ++ body else request)

section Requests

variable (client : HttpClient) (path body : Bytes)

def get : HttpClient × Bytes := client.writeRequest path (bytes "GET") []
def post : HttpClient × Bytes := client.writeRequest path (bytes "POST") body
def put : HttpClient × Bytes := client.writeRequest path (bytes "PUT") body
def del : HttpClient × Bytes := client.writeRequest path (bytes "DELETE") []

end Requests

/-! ## Header fields -/

/-- A header field that says nothing about the body, or is called just `Content-Length`. -/
structure IsOrdinary (e : Bytes × Bytes) : Prop where
  ne_nil : e.1 ≠ []
  token : HTTP.IsToken e.1
  value : HTTP.IsValue e.2
  space : e.2.head? ≠ some 32
  contentLength : Parser.Names (bytes "content-length") e.1 → e.1 = HttpClient.contentLength
  transferEncoding : ¬ Parser.Names (bytes "transfer-encoding") e.1
  upgrade : ¬ Parser.Names (bytes "upgrade") e.1

/-- The clients that there are: one is made, is given header fields and sends requests. -/
inductive Reached : HttpClient → Prop
  | new {inetAddr : Bytes} {port : Int} : HTTP.IsValue inetAddr → inetAddr.head? ≠ some 32 →
      Reached (new inetAddr port)
  | setHeader {client : HttpClient} {key value : Bytes} : Reached client →
      IsOrdinary (key, value) → Reached (client.setHeader key value)
  | setBasicAuth {client client' : HttpClient} {username password : Bytes} {passes : Nat} :
      Reached client → client.setBasicAuth username password passes = .returned client' →
      Reached client'
  | writeRequest {client : HttpClient} {path method body : Bytes} : Reached client →
      Reached (client.writeRequest path method body).1

/-- What the client means by a request for `path`, with or without a query. -/
def request (client : HttpClient) (method : HttpMethod) (path : Bytes) (query : Option Bytes)
    (body : Bytes) : SentRequest :=
  ⟨method, path, query, (client.telling body).headers.entries, body⟩

section Reached

variable {client : HttpClient} {e : Bytes × Bytes} {key value path body word name : Bytes}
  {method : HttpMethod} {query : Option Bytes} {parser : Parser} {reads : List Bytes}

/-- The names that the client uses by itself. -/
theorem isOrdinary_of_name (hname : name ∈ [bytes "Host", bytes "User-Agent", bytes "Accept",
    bytes "Connection", bytes "Authorization"]) (hvalue : HTTP.IsValue value)
    (hspace : value.head? ≠ some 32) :
    IsOrdinary (name, value) := by
  have hfacts : ∀ name ∈ [bytes "Host", bytes "User-Agent", bytes "Accept", bytes "Connection",
      bytes "Authorization"], name ≠ [] ∧ (name.all fun c => decide (token c ≠ 0)) = true ∧
        ¬ bytes "content-length" <+: name.map token ∧
        ¬ bytes "transfer-encoding" <+: name.map token ∧ ¬ bytes "upgrade" <+: name.map token := by
    decide
  obtain ⟨hne, htoken, hlength, htransfer, hupgrade⟩ := hfacts name hname
  exact ⟨hne, List.all_iff_forall_prop.mp htoken, hvalue, hspace,
    fun h => absurd h (Parser.not_names hlength), Parser.not_names htransfer, Parser.not_names hupgrade⟩

theorem isValue_getBase64CharValue {bits c : UInt8} (h : Base64.getBase64CharValue bits = .ok c) :
    c ≠ 13 ∧ c ≠ 10 := by
  have hnot := forall_byte (P := fun bits => Base64.getBase64CharValue bits ≠ .ok 13 ∧
    Base64.getBase64CharValue bits ≠ .ok 10) (by decide +kernel) bits
  constructor
  · rintro rfl
    exact hnot.1 h
  · rintro rfl
    exact hnot.2 h

theorem isValue_encodeBase64Chunk {data chunk : Bytes} {len : Int}
    (h : Base64.encodeBase64Chunk data len = .ok chunk) : HTTP.IsValue chunk := by
  have hpad : (61 : UInt8) ≠ 13 ∧ (61 : UInt8) ≠ 10 := by decide
  rw [Base64.encodeBase64Chunk] at h
  split at h
  · cases h
  dsimp only at h
  generalize (if 3 < len then 3 else len) = n at h
  obtain ⟨c₀, h₀, h⟩ := Exception.bind_eq_ok.mp h
  obtain ⟨c₁, h₁, h⟩ := Exception.bind_eq_ok.mp h
  have h₀ := isValue_getBase64CharValue h₀
  have h₁ := isValue_getBase64CharValue h₁
  split at h
  · cases h
    simpa [HTTP.IsValue] using ⟨h₀, h₁⟩
  obtain ⟨c₂, h₂, h⟩ := Exception.bind_eq_ok.mp h
  have h₂ := isValue_getBase64CharValue h₂
  split at h
  · cases h
    simpa [HTTP.IsValue] using ⟨h₀, h₁, h₂⟩
  obtain ⟨c₃, h₃, h⟩ := Exception.bind_eq_ok.mp h
  have h₃ := isValue_getBase64CharValue h₃
  cases h
  simpa [HTTP.IsValue] using ⟨h₀, h₁, h₂, h₃⟩

/-- An encoding is one line. -/
theorem isValue_of_bytesToBase64 {data s : Bytes} {passes : Nat}
    (h : Base64.bytesToBase64 data data.length passes = .returned s) : HTTP.IsValue s := by
  have hloop : ∀ (n : Nat) (idx : Int) (ret : Bytes), HTTP.IsValue ret →
      Base64.encodeLoop data data.length n idx ret = .returned s → HTTP.IsValue s := by
    intro n
    induction n with
    | zero =>
        intro idx ret _ h
        cases h
    | succ n ih =>
        intro idx ret hret h
        rw [Base64.encodeLoop] at h
        split at h
        · split at h
          · cases h
          · rename_i chunk hchunk
            refine ih _ _ (fun c hc => ?_) h
            exact (List.mem_append.mp hc).elim (hret c) (isValue_encodeBase64Chunk hchunk c)
        · cases h
          exact hret
  rw [Base64.bytesToBase64] at h
  split at h
  · cases h
  · exact hloop _ _ _ (fun c hc => absurd hc List.not_mem_nil) h

theorem isValue_decimalInt (z : Int) : HTTP.IsValue (decimalInt z) := by
  have hdigits : ∀ n c, c ∈ decimal n → c ≠ 13 ∧ c ≠ 10 := fun n c hc =>
    (Wire.isDigit_facts (isDigit_of_mem_decimal hc)).2.2
  cases z with
  | ofNat n => exact hdigits n
  | negSucc n =>
      intro c hc
      rcases List.mem_cons.mp hc with rfl | hc
      · decide
      · exact hdigits (n + 1) c hc

theorem names_contentLength : contentLength.map token = bytes "content-length" := by decide

theorem isOrdinary_contentLength (n : Nat) : IsOrdinary (contentLength, decimal n) where
  ne_nil := show contentLength ≠ [] by decide
  token := List.all_iff_forall_prop.mp
    (show (contentLength.all fun c => decide (token c ≠ 0)) = true by decide)
  value c hc := (Wire.isDigit_facts (isDigit_of_mem_decimal hc)).2.2
  space h := by
    have hdigit := isDigit_of_mem_decimal (List.mem_of_head? h)
    revert hdigit
    decide
  contentLength _ := rfl
  transferEncoding := Parser.not_names (show ¬ _ <+: contentLength.map token by decide)
  upgrade := Parser.not_names (show ¬ _ <+: contentLength.map token by decide)

theorem mem_setHeader (h : e ∈ (client.setHeader key value).headers.entries) :
    e = (key, value) ∨ e ∈ client.headers.entries := SortedMap.eq_or_mem_of_mem_insertEntry h

theorem mem_telling (h : e ∈ (client.telling body).headers.entries) :
    e = (contentLength, decimal body.length) ∨ e ∈ client.headers.entries := by
  rw [telling] at h
  split at h
  · exact mem_setHeader h
  · exact .inr (List.mem_of_mem_filter h)

/-- The header fields of a client are ordinary, and there is one. -/
structure Good (client : HttpClient) : Prop where
  ordinary : ∀ e ∈ client.headers.entries, IsOrdinary e
  host : ∃ value, (bytes "Host", value) ∈ client.headers.entries

theorem Good.setHeader (h : Good client) (he : IsOrdinary (key, value)) :
    Good (client.setHeader key value) where
  ordinary e hmem := by
    rcases mem_setHeader hmem with rfl | hmem
    · exact he
    · exact h.ordinary e hmem
  host := SortedMap.exists_mem_insertEntry h.host key value

theorem Good.telling (h : Good client) (body : Bytes) : Good (client.telling body) where
  ordinary e hmem := by
    rcases mem_telling hmem with rfl | hmem
    · exact isOrdinary_contentLength body.length
    · exact h.ordinary e hmem
  host := by
    rw [HttpClient.telling]
    split
    · exact SortedMap.exists_mem_insertEntry h.host _ _
    · obtain ⟨value, hmem⟩ := h.host
      have hne : bytes "Host" ≠ contentLength := by decide
      exact ⟨value, List.mem_filter.mpr ⟨hmem, by simpa using hne⟩⟩

/-- Every client there is has such header fields, whatever it has sent before. -/
theorem Reached.good (h : Reached client) : Good client := by
  induction h with
  | @new inetAddr port haddr hspace =>
      have hhost : IsOrdinary (bytes "Host", inetAddr ++ bytes ":" ++ decimalInt port) := by
        have hcolon : ∀ c ∈ bytes ":", c = 58 := List.all_iff_forall_prop.mp
          (show ((bytes ":").all fun c => decide (c = 58)) = true by decide)
        refine isOrdinary_of_name (by decide) (fun c hc => ?_) ?_
        · rcases List.mem_append.mp hc with hc | hc
          · rcases List.mem_append.mp hc with hc | hc
            · exact haddr c hc
            · rw [hcolon c hc]
              decide
          · exact isValue_decimalInt port c hc
        · cases inetAddr with
          | nil => exact nofun
          | cons c inetAddr => exact hspace
      have hvalue : ∀ value ∈ [bytes "Gunrock/1.0", bytes "*/*", bytes "close"],
          HTTP.IsValue value ∧ value.head? ≠ some 32 := by
        have hfacts : ∀ value ∈ [bytes "Gunrock/1.0", bytes "*/*", bytes "close"],
            (value.all fun c => decide (c ≠ 13 ∧ c ≠ 10)) = true ∧ value.head? ≠ some 32 := by decide
        exact fun value hmem => ⟨List.all_iff_forall_prop.mp (hfacts value hmem).1,
          (hfacts value hmem).2⟩
      have hfirst : Good (HttpClient.setHeader ⟨.empty⟩ (bytes "Host")
          (inetAddr ++ bytes ":" ++ decimalInt port)) := by
        refine ⟨fun e he => ?_, ⟨_, SortedMap.mem_insertEntry _ _ _⟩⟩
        rcases mem_setHeader he with rfl | he
        · exact hhost
        · cases he
      have huser := hvalue (bytes "Gunrock/1.0") (by decide)
      have haccept := hvalue (bytes "*/*") (by decide)
      have hclose := hvalue (bytes "close") (by decide)
      exact ((hfirst.setHeader (isOrdinary_of_name (by decide) huser.1 huser.2)).setHeader
        (isOrdinary_of_name (by decide) haccept.1 haccept.2)).setHeader
          (isOrdinary_of_name (by decide) hclose.1 hclose.2)
  | setHeader _ he ih => exact ih.setHeader he
  | @setBasicAuth client client' username password passes _ hrun ih =>
      delta HttpClient.setBasicAuth at hrun
      dsimp only at hrun
      split at hrun
      · cases hrun
      · cases hrun
      · rename_i s hs
        cases hrun
        refine ih.setHeader (isOrdinary_of_name (by decide) ?_ ?_)
        · have hbasic : HTTP.IsValue (bytes "Basic ") := List.all_iff_forall_prop.mp
            (show ((bytes "Basic ").all fun c => decide (c ≠ 13 ∧ c ≠ 10)) = true by decide)
          intro c hc
          exact (List.mem_append.mp hc).elim (hbasic c) (isValue_of_bytesToBase64 hs c)
        · have hhead : (bytes "Basic ").head? = some 66 := by decide
          simp [List.head?_append, hhead]
  | @writeRequest client path method body _ ih => exact ih.telling body

/-- The fields of a request fit its body. -/
theorem Good.isField (h : Good client) (he : e ∈ (client.telling body).headers.entries) :
    Wire.IsField body.length e := by
  have ho := (h.telling body).ordinary e he
  refine ⟨ho.ne_nil, ho.token, ho.value, ho.space, fun hnames => ?_, ho.transferEncoding, ho.upgrade⟩
  have hkey := ho.contentLength hnames
  rw [HttpClient.telling] at he
  split at he
  · have hmem : (contentLength, decimal body.length) ∈
        (client.setHeader contentLength (decimal body.length)).headers.entries :=
      SortedMap.mem_insertEntry _ _ _
    exact congrArg Prod.snd (SortedMap.eq_of_mem he hmem hkey)
  · exact absurd hkey (by simpa using (List.mem_filter.mp he).2)

theorem Good.sendable (h : Good client) (hline : (client.request method path query body).IsLine)
    (hlen : body.length < 2 ^ 63)
    (hshort : (client.request method path query body).header.length + 2 ≤ maxHeaderSize) :
    (client.request method path query body).Sendable where
  line := hline
  headers hnil := by
    obtain ⟨value, hmem⟩ := (h.telling body).host
    have hnil : (client.telling body).headers.entries = [] := hnil
    rw [hnil] at hmem
    cases hmem
  fields e he := h.isField he
  told hne := by
    have hpos : 0 < body.length := List.length_pos_iff.mpr hne
    refine ⟨(contentLength, decimal body.length), ?_, .of_eq names_contentLength⟩
    rw [request, HttpClient.telling, if_pos hpos]
    exact SortedMap.mem_insertEntry _ _ _
  length := hlen
  short := hshort

/-- What is written is the request. -/
theorem writeRequest_eq (client : HttpClient) (method : HttpMethod) (path : Bytes)
    (query : Option Bytes) (body : Bytes) :
    (client.writeRequest (client.request method path query body).url (methodString method) body).2 =
      (client.request method path query body).text := by
  have hspace : methodString method ++ bytes " " = methodString method ++ [32] :=
    congrArg _ (by decide)
  have hline : (client.request method path query body).headers.flatMap Wire.headerLine =
      (client.telling body).headers.entries.flatMap fun e =>
        e.1 ++ bytes ": " ++ e.2 ++ bytes "\r\n" := rfl
  rw [writeRequest, SentRequest.text, SentRequest.header, SentRequest.requestLine, hline, hspace]
  dsimp only [request]
  by_cases hpos : 0 < body.length
  · rw [if_pos hpos]
  · obtain rfl : body = [] := by simpa using hpos
    rw [if_neg hpos, List.append_nil]

/-- The server receives what the client is asked to send, whatever it has sent before. -/
theorem Reached.receive_writeRequest (h : Reached client) (parser : Parser)
    (hline : (client.request method path query body).IsLine) (hlen : body.length < 2 ^ 63)
    (hshort : (client.request method path query body).header.length + 2 ≤ maxHeaderSize)
    (hne : [] ∉ reads) (hreads : reads.flatten = (client.writeRequest
      (client.request method path query body).url (methodString method) body).2) :
    Wire.receive parser reads = some (some (client.request method path query body).received) := by
  obtain ⟨parser', hread⟩ := Wire.readRequest_text parser (h.good.sendable hline hlen hshort) hne
    (hreads.trans (writeRequest_eq client method path query body))
  rw [Wire.receive, hread]
  rfl

/-- A client whose first request has a body, and its second one, which comes in two reads. -/
theorem receive_second : ∃ client : HttpClient, ∃ r : SentRequest, r.body = [] ∧
    client = ((new (bytes "localhost") 8080).put (bytes "/a") [120]).1 ∧
    Wire.receive Wire.memory [(client.get (bytes "/a")).2.take 9, (client.get (bytes "/a")).2.drop 9] =
      some (some r.received) := by
  have hlocal : Reached (new (bytes "localhost") 8080) :=
    .new (List.all_iff_forall_prop.mp
      (show ((bytes "localhost").all fun c => decide (c ≠ 13 ∧ c ≠ 10)) = true by decide)) (by decide)
  let client := ((new (bytes "localhost") 8080).put (bytes "/a") [120]).1
  have hline : (client.request .get (bytes "/a") none []).IsLine :=
    ⟨by decide, (by decide : (bytes "/a").head? = some 47), List.all_iff_forall_prop.mp
      (show ((bytes "/a").all fun c => decide (normalUrlChar c = true)) = true by decide), nofun⟩
  refine ⟨client, client.request .get (bytes "/a") none [], rfl, rfl, ?_⟩
  refine hlocal.writeRequest.receive_writeRequest Wire.memory hline (by decide) (by decide +kernel)
    (by decide +kernel) ?_
  rw [List.flatten_cons, List.flatten_singleton, List.take_append_drop]
  rfl

end Reached

end HttpClient

end Gunrock
