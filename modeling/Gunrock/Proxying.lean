import Mathlib.Data.List.Infix
import Gunrock.HttpClient

/-!
# Requests that are passed on

What makes a proxy of `HTTP.cpp`: `getProxyRequest` writes a request that was received out again, for
the server that `getHost` names.  Some of the header fields are for the proxy itself, and are changed
on the way.

A proxy need not be the first one.  Behind any number of them, each with a user agent of its own or
none, the request is received as the client has meant it, but for those fields
(`Wire.arrives_proxied`).
-/

namespace Gunrock

open Text

namespace HTTP

/-! ## The proxy -/

def getHost (http : HTTP) : Bytes :=
  let host := if http.isConnect then http.url else http.host
  if 58 ∈ host then host else host ++ bytes ":80"

/-- What the server is asked for, which an assertion wants to find in the URL. -/
def urlPathQuery (http : HTTP) : Option Bytes :=
  let urlPathQuery := (if http.path = [] then [47] else http.path) ++
    (if http.query = [] then [] else 63 :: http.query)
  if urlPathQuery <:+: http.url then some urlPathQuery
  else if http.query = [] then none
  else some (http.path ++ 63 :: 63 :: http.query)

/-- The header field that is passed on for one that was received, if there is one. -/
def proxyField (userAgent : Option Bytes) (h : Bytes × Bytes) : Option (Bytes × Bytes) :=
  let (field, value) := h
  let value := if field = bytes "User-Agent" then userAgent.getD value else value
  let (field, value) := if field = bytes "Proxy-Connection" then
    (bytes "Connection", bytes "close") else (field, value)
  if field ≠ bytes "Keep-Alive" then some (field, value) else none

def getProxyRequest (http : HTTP) (userAgent : Option Bytes) : Option Bytes := do
  guard (http.httpType = .request)
  let line ← match http.method with
    | some .get => http.urlPathQuery.map (bytes "GET " ++ ·)
    | some .connect => some (bytes "CONNECT " ++ http.url)
    | some .post => http.urlPathQuery.map (bytes "POST " ++ ·)
    | some .head => http.urlPathQuery.map (bytes "HEAD " ++ ·)
    | _ => none
  return line ++ bytes " HTTP/1.1\r\n" ++
    (http.headers.filterMap (proxyField userAgent)).flatMap Wire.headerLine ++ bytes "\r\n" ++ http.body

/-! ## Header fields -/

variable {userAgent userAgent' : Option Bytes} {e e' : Bytes × Bytes} {field value : Bytes}

/-- The field for the proxy's own connection. -/
theorem proxyField_proxyConnection (userAgent : Option Bytes) (value : Bytes) :
    proxyField userAgent (bytes "Proxy-Connection", value) =
      some (bytes "Connection", bytes "close") := by
  have hkeep : bytes "Connection" ≠ bytes "Keep-Alive" := by decide
  delta proxyField
  dsimp only
  rw [if_pos rfl, if_pos hkeep]

/-- A field that is for no proxy. -/
theorem proxyField_of_ne (hproxy : field ≠ bytes "Proxy-Connection")
    (hkeep : field ≠ bytes "Keep-Alive") : proxyField userAgent (field, value) =
      some (field, if field = bytes "User-Agent" then userAgent.getD value else value) := by
  delta proxyField
  dsimp only
  rw [if_neg hproxy, if_pos hkeep]

theorem proxyField_eq_none_iff : proxyField userAgent e = none ↔ e.1 = bytes "Keep-Alive" := by
  obtain ⟨field, value⟩ := e
  have hne : bytes "Proxy-Connection" ≠ bytes "Keep-Alive" := by decide
  by_cases hproxy : field = bytes "Proxy-Connection"
  · rw [hproxy, proxyField_proxyConnection]
    exact iff_of_false (Option.some_ne_none _) hne
  · refine ⟨fun hnone => ?_, fun hkeep => ?_⟩
    · by_contra hkeep
      rw [proxyField_of_ne hproxy hkeep] at hnone
      cases hnone
    · delta proxyField
      dsimp only at hkeep ⊢
      rw [if_neg hproxy, if_neg (not_not.mpr hkeep)]

/-- A field that is passed on is that of a connection, or has the name of the one that was received,
and its value too if it is not the proxy's own name. -/
theorem proxyField_cases (h : proxyField userAgent e = some e') :
    (e.1 = bytes "Proxy-Connection" ∧ e' = (bytes "Connection", bytes "close")) ∨ e' = e ∨
      (e.1 = bytes "User-Agent" ∧ e'.1 = e.1 ∧ e'.2 ∈ userAgent) := by
  obtain ⟨field, value⟩ := e
  by_cases hproxy : field = bytes "Proxy-Connection"
  · rw [hproxy, proxyField_proxyConnection] at h
    exact .inl ⟨hproxy, (Option.some.inj h).symm⟩
  · have hkeep : field ≠ bytes "Keep-Alive" := by
      rintro hkeep
      cases (proxyField_eq_none_iff.mpr hkeep).symm.trans h
    rw [proxyField_of_ne hproxy hkeep] at h
    cases h
    by_cases hagent : field = bytes "User-Agent"
    · rw [if_pos hagent]
      cases userAgent with
      | none => exact .inr (.inl rfl)
      | some agent => exact .inr (.inr ⟨hagent, rfl, rfl⟩)
    · rw [if_neg hagent]
      exact .inr (.inl rfl)

/-- Two proxies do to a field what one of them would, under the name of the later one if it has one. -/
theorem proxyField_bind (userAgent userAgent' : Option Bytes) (e : Bytes × Bytes) :
    (proxyField userAgent e).bind (proxyField userAgent') =
      proxyField (userAgent' <|> userAgent) e := by
  obtain ⟨field, value⟩ := e
  by_cases hproxy : field = bytes "Proxy-Connection"
  · have hconnection : bytes "Connection" ≠ bytes "Proxy-Connection" := by decide
    have hkeep : bytes "Connection" ≠ bytes "Keep-Alive" := by decide
    have hagent : bytes "Connection" ≠ bytes "User-Agent" := by decide
    rw [hproxy, proxyField_proxyConnection, proxyField_proxyConnection, Option.bind_some,
      proxyField_of_ne hconnection hkeep, if_neg hagent]
  by_cases hkeep : field = bytes "Keep-Alive"
  · have hnone : ∀ userAgent, proxyField userAgent (field, value) = none :=
      fun _ => proxyField_eq_none_iff.mpr hkeep
    rw [hnone, hnone, Option.bind_none]
  rw [proxyField_of_ne hproxy hkeep, Option.bind_some, proxyField_of_ne hproxy hkeep,
    proxyField_of_ne hproxy hkeep]
  by_cases hagent : field = bytes "User-Agent"
  · rw [if_pos hagent, if_pos hagent, if_pos hagent]
    cases userAgent' <;> cases userAgent <;> rfl
  · rw [if_neg hagent, if_neg hagent, if_neg hagent]

theorem hostOf_cons (host : Bytes) (e : Bytes × Bytes) (hs : List (Bytes × Bytes)) :
    hostOf host (e :: hs) = hostOf (if e.1 = hostField then e.2 else host) hs := rfl

/-- The host is known from fields that are for no proxy. -/
theorem hostOf_proxyField (userAgent : Option Bytes) (hs : List (Bytes × Bytes)) (host : Bytes) :
    hostOf host (hs.filterMap (proxyField userAgent)) = hostOf host hs := by
  induction hs generalizing host with
  | nil => rfl
  | cons e hs ih =>
      have hconnection : bytes "Connection" ≠ hostField := by decide
      have hproxy : bytes "Proxy-Connection" ≠ hostField := by decide
      have hagent : bytes "User-Agent" ≠ hostField := by decide
      have hkeep : bytes "Keep-Alive" ≠ hostField := by decide
      cases hf : proxyField userAgent e with
      | none =>
          have hfield := proxyField_eq_none_iff.mp hf
          rw [List.filterMap_cons_none hf, ih, hostOf_cons, if_neg (hfield ▸ hkeep)]
      | some e' =>
          rw [List.filterMap_cons_some hf, hostOf_cons, hostOf_cons, ih]
          rcases proxyField_cases hf with ⟨hfield, rfl⟩ | rfl | ⟨hfield, hname, -⟩
          · rw [if_neg hconnection, if_neg (hfield ▸ hproxy)]
          · rfl
          · rw [if_neg (hname ▸ hfield ▸ hagent), if_neg (hfield ▸ hagent)]

end HTTP

namespace SentRequest

variable {r : SentRequest} {userAgent userAgent' : Option Bytes}

/-! ## Requests behind a proxy -/

/-- The request as it is behind a proxy. -/
def proxied (r : SentRequest) (userAgent : Option Bytes) : SentRequest :=
  { r with
    query := r.query.filter (· ≠ [])
    headers := r.headers.filterMap (HTTP.proxyField userAgent) }

/-- Two proxies are like one. -/
theorem proxied_proxied (r : SentRequest) (userAgent userAgent' : Option Bytes) :
    (r.proxied userAgent).proxied userAgent' = r.proxied (userAgent' <|> userAgent) := by
  have hquery : (r.query.filter (· ≠ [])).filter (· ≠ []) = r.query.filter (· ≠ []) := by
    rw [Option.filter_filter]
    simp
  have hheaders : (r.headers.filterMap (HTTP.proxyField userAgent)).filterMap
      (HTTP.proxyField userAgent') = r.headers.filterMap
        (HTTP.proxyField (userAgent' <|> userAgent)) := by
    rw [List.filterMap_filterMap]
    exact congrArg (List.filterMap · r.headers) (funext (HTTP.proxyField_bind userAgent userAgent'))
  rw [proxied, proxied, proxied, hquery, hheaders]

theorem queryText_proxied (r : SentRequest) (userAgent : Option Bytes) :
    (r.proxied userAgent).queryText =
      if r.query.getD [] = [] then [] else 63 :: r.query.getD [] := by
  rw [queryText, proxied]
  cases r.query with
  | none => rfl
  | some query => cases query <;> rfl

/-- What is asked for stands in the URL, so it is passed on. -/
theorem urlPathQuery_received (hline : r.IsLine) (userAgent : Option Bytes) :
    r.received.urlPathQuery = some (r.proxied userAgent).url := by
  have hpath : r.received.path ≠ [] := by
    intro hnil
    have hslash := hline.slash
    rw [show r.path = [] from hnil] at hslash
    cases hslash
  have hinfix : r.received.path ++ (if r.received.query = [] then [] else 63 :: r.received.query) <:+:
      r.received.url := by
    change r.path ++ (if r.query.getD [] = [] then [] else 63 :: r.query.getD []) <:+:
      r.path ++ r.queryText
    refine List.IsPrefix.isInfix ((List.prefix_append_right_inj _).mpr ?_)
    rw [queryText]
    cases r.query with
    | none => exact List.prefix_refl _
    | some query =>
        rw [Option.getD_some]
        split
        · exact List.nil_prefix
        · exact List.prefix_refl _
  delta HTTP.urlPathQuery
  dsimp only
  rw [if_neg hpath, if_pos hinfix, url, queryText_proxied]
  rfl

/-- The methods whose requests are passed on to a path. -/
def proxiedMethods : List HttpMethod := [.get, .post, .head]

/-- What is written for the next server is the request as it is behind the proxy. -/
theorem getProxyRequest_received (hline : r.IsLine) (hmethod : r.method ∈ proxiedMethods)
    (userAgent : Option Bytes) :
    r.received.getProxyRequest userAgent = some (r.proxied userAgent).text := by
  have hstart : ∀ method ∈ proxiedMethods, r.received.method = some method →
      r.received.getProxyRequest userAgent = r.received.urlPathQuery.bind fun target =>
        some (methodString method ++ [32] ++ target ++ bytes " HTTP/1.1\r\n" ++
          (r.proxied userAgent).headers.flatMap Wire.headerLine ++ bytes "\r\n" ++ r.body) := by
    intro method hmem hm
    have hget : bytes "GET " = methodString .get ++ [32] := by decide
    have hpost : bytes "POST " = methodString .post ++ [32] := by decide
    have hhead : bytes "HEAD " = methodString .head ++ [32] := by decide
    delta HTTP.getProxyRequest
    dsimp only
    rw [hm]
    simp only [proxiedMethods, List.mem_cons, List.not_mem_nil, or_false] at hmem
    rcases hmem with rfl | rfl | rfl
    · rw [hget]
      cases r.received.urlPathQuery <;> rfl
    · rw [hpost]
      cases r.received.urlPathQuery <;> rfl
    · rw [hhead]
      cases r.received.urlPathQuery <;> rfl
  rw [hstart r.method hmethod rfl, urlPathQuery_received hline userAgent, Option.bind_some, text,
    header, requestLine]
  rfl

/-- A line that is passed on is no longer than the one that was received. -/
theorem length_headerLine_proxyField {e e' : Bytes × Bytes} (h : HTTP.proxyField none e = some e') :
    (Wire.headerLine e').length ≤ (Wire.headerLine e).length := by
  rcases HTTP.proxyField_cases h with ⟨hfield, rfl⟩ | rfl | ⟨-, -, hagent⟩
  · have hconnection : (bytes "Connection").length + (bytes "close").length <
        (bytes "Proxy-Connection").length := by decide
    simp only [Wire.headerLine, List.length_append, hfield]
    omega
  · exact Nat.le_refl _
  · cases hagent

theorem length_header_proxied (r : SentRequest) :
    (r.proxied none).header.length ≤ r.header.length := by
  have hline : (r.proxied none).requestLine.length ≤ r.requestLine.length := by
    have hquery : (r.proxied none).queryText.length ≤ r.queryText.length := by
      rw [queryText_proxied, queryText]
      cases r.query with
      | none => exact Nat.le_refl _
      | some query =>
          rw [Option.getD_some]
          split
          · exact Nat.zero_le _
          · exact Nat.le_refl _
    have hurl : (r.proxied none).path = r.path := rfl
    simp only [requestLine, url, List.length_append, hurl]
    have hmethod : (r.proxied none).method = r.method := rfl
    rw [hmethod]
    omega
  have hheaders : ∀ hs : List (Bytes × Bytes),
      ((hs.filterMap (HTTP.proxyField none)).flatMap Wire.headerLine).length ≤
        (hs.flatMap Wire.headerLine).length := by
    intro hs
    induction hs with
    | nil => exact Nat.le_refl _
    | cons e hs ih =>
        rw [List.flatMap_cons, List.length_append]
        cases hf : HTTP.proxyField none e with
        | none =>
            rw [List.filterMap_cons_none hf]
            omega
        | some e' =>
            have hle := length_headerLine_proxyField hf
            rw [List.filterMap_cons_some hf, List.flatMap_cons, List.length_append]
            omega
  have hle := hheaders r.headers
  rw [header, header, List.length_append, List.length_append]
  exact Nat.add_le_add hline hle

/-- A name that a proxy may give itself. -/
structure IsAgent (agent : Bytes) : Prop where
  value : HTTP.IsValue agent
  space : agent.head? ≠ some 32

/-- A header field stays one that the parser takes. -/
theorem isField_proxyField {size : Nat} {e e' : Bytes × Bytes} (h : Wire.IsField size e)
    (hagent : ∀ agent ∈ userAgent, IsAgent agent) (hf : HTTP.proxyField userAgent e = some e') :
    Wire.IsField size e' := by
  rcases HTTP.proxyField_cases hf with ⟨-, rfl⟩ | rfl | ⟨hfield, hname, hmem⟩
  · exact
      { ne_nil := show bytes "Connection" ≠ [] by decide
        token := List.all_iff_forall_prop.mp
          (show ((bytes "Connection").all fun c => decide (token c ≠ 0)) = true by decide)
        value := List.all_iff_forall_prop.mp
          (show ((bytes "close").all fun c => decide (c ≠ 13 ∧ c ≠ 10)) = true by decide)
        space := show (bytes "close").head? ≠ some 32 by decide
        contentLength := fun hn => absurd hn
          (Parser.not_names (show ¬ _ <+: (bytes "Connection").map token by decide))
        transferEncoding := Parser.not_names (show ¬ _ <+: (bytes "Connection").map token by decide)
        upgrade := Parser.not_names (show ¬ _ <+: (bytes "Connection").map token by decide) }
  · exact h
  · obtain ⟨field', value⟩ := e'
    obtain rfl : field' = e.1 := hname
    exact
      { ne_nil := h.ne_nil
        token := h.token
        value := (hagent value hmem).value
        space := (hagent value hmem).space
        contentLength := fun hn => by
          rw [hfield] at hn
          exact absurd hn (Parser.not_names
            (show ¬ _ <+: (bytes "User-Agent").map token by decide))
        transferEncoding := h.transferEncoding
        upgrade := h.upgrade }

/-- A field that tells the length of the body is passed on as it is. -/
theorem proxyField_contentLength {e : Bytes × Bytes}
    (h : Parser.Names (bytes "content-length") e.1) : HTTP.proxyField userAgent e = some e := by
  have hne : ∀ name ∈ [bytes "Proxy-Connection", bytes "Keep-Alive", bytes "User-Agent"],
      ¬ bytes "content-length" <+: name.map token := by decide
  have hnot : ∀ name ∈ [bytes "Proxy-Connection", bytes "Keep-Alive", bytes "User-Agent"],
      e.1 ≠ name := fun name hmem heq => Parser.not_names (hne name hmem) (heq ▸ h)
  obtain ⟨field, value⟩ := e
  rw [HTTP.proxyField_of_ne (hnot _ (by decide)) (hnot _ (by decide)),
    if_neg (hnot _ (by decide))]

theorem Sendable.proxied (h : r.Sendable) (hkeep : ∃ e ∈ r.headers, e.1 ≠ bytes "Keep-Alive")
    (hagent : ∀ agent ∈ userAgent, IsAgent agent)
    (hshort : (r.proxied userAgent).header.length + 2 ≤ maxHeaderSize) :
    (r.proxied userAgent).Sendable where
  line :=
    { method := h.line.method
      slash := h.line.slash
      path := h.line.path
      query := fun query hq => h.line.query query (Option.mem_filter_iff.mp hq).1 }
  headers hnil := by
    obtain ⟨e, hmem, hne⟩ := hkeep
    have hnone := List.filterMap_eq_nil_iff.mp hnil e hmem
    exact hne (HTTP.proxyField_eq_none_iff.mp hnone)
  fields e' hmem' := by
    obtain ⟨e, hmem, hf⟩ := List.mem_filterMap.mp hmem'
    exact isField_proxyField (h.fields e hmem) hagent hf
  told hne := by
    obtain ⟨e, hmem, hnames⟩ := h.told hne
    exact ⟨e, List.mem_filterMap.mpr ⟨e, hmem, proxyField_contentLength hnames⟩, hnames⟩
  length := h.length
  short := hshort

/-- A request that proxies may pass on. -/
structure Passable (r : SentRequest) : Prop extends r.Sendable where
  method : r.method ∈ proxiedMethods
  keeps : ∃ e ∈ r.headers, e.1 ≠ bytes "Keep-Alive"

/-- A user agent with which the request can still be received. -/
def Takes (r : SentRequest) (userAgent : Option Bytes) : Prop :=
  ∀ agent ∈ userAgent, IsAgent agent ∧
    (r.proxied (some agent)).header.length + 2 ≤ maxHeaderSize

theorem Passable.proxied (h : r.Passable) (ht : r.Takes userAgent) :
    (r.proxied userAgent).Passable where
  toSendable := by
    refine h.toSendable.proxied h.keeps (fun agent hmem => (ht agent hmem).1) ?_
    cases userAgent with
    | none =>
        have hle := r.length_header_proxied
        have hshort := h.short
        omega
    | some agent => exact (ht agent rfl).2
  method := h.method
  keeps := by
    obtain ⟨e, hmem, hne⟩ := h.keeps
    have hsome : HTTP.proxyField userAgent e ≠ none := hne ∘ HTTP.proxyField_eq_none_iff.mp
    obtain ⟨e', hf⟩ := Option.ne_none_iff_exists'.mp hsome
    refine ⟨e', List.mem_filterMap.mpr ⟨e, hmem, hf⟩, ?_⟩
    rcases HTTP.proxyField_cases hf with ⟨-, rfl⟩ | rfl | ⟨-, hname, -⟩
    · exact show bytes "Connection" ≠ bytes "Keep-Alive" by decide
    · exact hne
    · exact hname ▸ hne

/-- The host that the proxy is asked for is asked for behind it. -/
theorem Passable.getHost_proxied (h : r.Passable) (userAgent : Option Bytes) :
    (r.proxied userAgent).received.getHost = r.received.getHost := by
  have hconnect : r.received.isConnect = false := by
    have hne : r.method ≠ .connect := by
      intro heq
      have hmethod := h.method
      rw [heq] at hmethod
      revert hmethod
      decide
    exact decide_eq_false fun heq => hne (Option.some.inj heq)
  have hconnect' : (r.proxied userAgent).received.isConnect = false := hconnect
  have hhost : (r.proxied userAgent).received.host = r.received.host :=
    HTTP.hostOf_proxyField userAgent r.headers []
  rw [HTTP.getHost, HTTP.getHost, hconnect, hconnect', if_neg Bool.false_ne_true,
    if_neg Bool.false_ne_true, hhost]

theorem Takes.proxied (h : r.Takes userAgent') : (r.proxied userAgent).Takes userAgent' := by
  intro agent hmem
  rw [proxied_proxied]
  exact h agent hmem

end SentRequest

/-! ## Any number of proxies -/

namespace Wire

variable {r : SentRequest} {userAgent : Option Bytes} {userAgents : List (Option Bytes)}

/-- Behind the proxies a request is received that has `Q`, whatever the connections between them. -/
def Arrives (Q : HTTP → Prop) : List (Option Bytes) → HTTP → Prop
  | [], http => Q http
  | userAgent :: userAgents, http => ∃ text, http.getProxyRequest userAgent = some text ∧
      ∀ parser reads, [] ∉ reads → reads.flatten = text →
        ∃ http', receive parser reads = some (some http') ∧ Arrives Q userAgents http'

theorem Arrives.imp {Q Q' : HTTP → Prop} {http : HTTP} (h : Arrives Q userAgents http)
    (hQ : ∀ http, Q http → Q' http) : Arrives Q' userAgents http := by
  induction userAgents generalizing http with
  | nil => exact hQ http h
  | cons userAgent userAgents ih =>
      obtain ⟨text, htext, hall⟩ := h
      refine ⟨text, htext, fun parser reads hne hreads => ?_⟩
      obtain ⟨http', hreceive, h'⟩ := hall parser reads hne hreads
      exact ⟨http', hreceive, ih h'⟩

/-- A request is passed on by each of the proxies. -/
theorem arrives_foldl (h : r.Passable) (ht : ∀ userAgent ∈ userAgents, r.Takes userAgent) :
    Arrives (· = (userAgents.foldl SentRequest.proxied r).received) userAgents r.received := by
  induction userAgents generalizing r with
  | nil => rfl
  | cons userAgent userAgents ih =>
      obtain ⟨hagent, ht⟩ := List.forall_mem_cons.mp ht
      refine ⟨_, SentRequest.getProxyRequest_received h.line h.method userAgent,
        fun parser reads hne hreads => ⟨_, ?_, ih (h.proxied hagent) fun _ hmem => (ht _ hmem).proxied⟩⟩
      obtain ⟨parser', hread⟩ := readRequest_text parser (h.proxied hagent).toSendable hne hreads
      rw [receive, hread]
      rfl

/-- The name that the last one gives, of those that give one. -/
def lastAgent (userAgents : List (Option Bytes)) : Option Bytes :=
  userAgents.foldl (fun userAgent userAgent' => userAgent' <|> userAgent) none

/-- Any number of proxies are like one. -/
theorem foldl_proxied (r : SentRequest) (userAgent : Option Bytes)
    (userAgents : List (Option Bytes)) :
    (userAgent :: userAgents).foldl SentRequest.proxied r =
      r.proxied (lastAgent (userAgent :: userAgents)) := by
  have hlast : lastAgent (userAgent :: userAgents) =
      userAgents.foldl (fun userAgent userAgent' => userAgent' <|> userAgent) userAgent := by
    cases userAgent <;> rfl
  rw [hlast, List.foldl_cons]
  clear hlast
  induction userAgents generalizing userAgent with
  | nil => rfl
  | cons userAgent' userAgents ih =>
      rw [List.foldl_cons, List.foldl_cons, SentRequest.proxied_proxied, ih]

/-- Behind any proxies the request is received as behind one, and for the host that was meant. -/
theorem arrives_proxied (h : r.Passable) (userAgent : Option Bytes)
    (userAgents : List (Option Bytes)) (ht : ∀ agent ∈ userAgent :: userAgents, r.Takes agent) :
    Arrives (fun http => http = (r.proxied (lastAgent (userAgent :: userAgents))).received ∧
      http.getHost = r.received.getHost) (userAgent :: userAgents) r.received := by
  refine (arrives_foldl h ht).imp ?_
  rintro http rfl
  rw [foldl_proxied]
  exact ⟨rfl, h.getHost_proxied _⟩

/-- A client that asks one proxy to keep its connection, and another one behind it. -/
theorem exists_arrives : ∃ (client : HttpClient) (r : SentRequest),
    client = (HttpClient.new (bytes "localhost") 8080).setHeader (bytes "Proxy-Connection") [97] ∧
      r = client.request .get (bytes "/a") none [] ∧
      Arrives (fun http => http = (r.proxied (some [98])).received ∧
        http.getHost = r.received.getHost) [none, some [98]] r.received := by
  let client := (HttpClient.new (bytes "localhost") 8080).setHeader (bytes "Proxy-Connection") [97]
  let r := client.request .get (bytes "/a") none []
  have hlocal : client.Reached := by
    refine .setHeader (.new (List.all_iff_forall_prop.mp
      (show ((bytes "localhost").all fun c => decide (c ≠ 13 ∧ c ≠ 10)) = true by decide))
        (by decide)) ?_
    exact
      { ne_nil := show bytes "Proxy-Connection" ≠ [] by decide
        token := List.all_iff_forall_prop.mp
          (show ((bytes "Proxy-Connection").all fun c => decide (token c ≠ 0)) = true by decide)
        value := List.all_iff_forall_prop.mp
          (show (([97] : Bytes).all fun c => decide (c ≠ 13 ∧ c ≠ 10)) = true by decide)
        space := by decide
        contentLength := fun hn => absurd hn
          (Parser.not_names (show ¬ _ <+: (bytes "Proxy-Connection").map token by decide))
        transferEncoding :=
          Parser.not_names (show ¬ _ <+: (bytes "Proxy-Connection").map token by decide)
        upgrade := Parser.not_names (show ¬ _ <+: (bytes "Proxy-Connection").map token by decide) }
  have hline : r.IsLine :=
    ⟨by decide, (by decide : (bytes "/a").head? = some 47), List.all_iff_forall_prop.mp
      (show ((bytes "/a").all fun c => decide (normalUrlChar c = true)) = true by decide), nofun⟩
  have hpassable : r.Passable :=
    { hlocal.good.sendable hline (by decide) (by decide +kernel) with
      method := by decide
      keeps := by decide +kernel }
  refine ⟨client, r, rfl, rfl, arrives_proxied hpassable none [some [98]]
    fun userAgent hmem agent hagent => ?_⟩
  rcases List.mem_cons.mp hmem with rfl | hmem
  · cases hagent
  · rcases List.mem_singleton.mp hmem with rfl
    obtain rfl := Option.some.inj hagent
    exact ⟨⟨List.all_iff_forall_prop.mp
      (show (([98] : Bytes).all fun c => decide (c ≠ 13 ∧ c ≠ 10)) = true by decide), by decide⟩,
        by decide +kernel⟩

end Wire

end Gunrock
