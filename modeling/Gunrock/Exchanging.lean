import Gunrock.HttpClient
import Gunrock.Server

/-!
# From client to client

What a client puts and the server acknowledges another client gets, whatever else is sent to the
server in between (`Site.put_get`).  Here the two ends meet: what `HttpClient` writes is what the
services are asked, and what they have been asked is what the disk shows.
-/

namespace Gunrock

open Disk LocalFileSystem DistributedFileSystemService Text Wp

/-- The request that is meant. -/
def SentRequest.asked (r : SentRequest) : HTTPRequest := ⟨r.method.asked, r.path, r.body⟩

/-- The reads of a connection are the request, in any pieces. -/
structure Connection.Carries (conn : Connection) (r : SentRequest) : Prop where
  sendable : r.Sendable
  text : conn.reads.flatten = r.text

variable {site : Site} {conn : Connection} {r : SentRequest} {g : Geometry} {d d' : Disk}
  {s body path : Bytes} {client : HttpClient}

theorem Connection.Carries.receive (h : conn.Carries r) :
    Wire.receive conn.memory conn.reads = some (some r.received) := by
  obtain ⟨parser', hread⟩ := Wire.readRequest_text conn.memory h.sendable conn.nonempty h.text
  rw [Wire.receive, hread]
  rfl

/-- The services are asked what is meant. -/
theorem Connection.Carries.handleRequest_eq (h : conn.Carries r) : site.handleRequest conn = (do
    let response ← site.invokeServiceMethod r.asked (Service.find r.path)
    return if conn.takes then .answered r.asked response else .unsent r.asked response) := by
  rw [Site.handleRequest, h.receive]
  rfl

/-- A connection to a path under `/ds3/`. -/
theorem Connection.Carries.plain (h : conn.Carries r) (hs : PlainPath s)
    (hpath : r.path = pathPrefix ++ s) (hfits : r.asked.Fits) : conn.Plain := by
  intro http hhttp _
  rw [h.receive] at hhttp
  cases hhttp
  exact ⟨⟨s, hs, hpath⟩, hfits⟩

theorem find_pathPrefix (s : Bytes) :
    Service.find (pathPrefix ++ s) = some .distributedFileSystem := by
  rw [Service.find, List.find?_cons_of_pos]
  exact decide_eq_true (List.prefix_append _ _)

/-- The request of a client for a path under `/ds3/`. -/
theorem HttpClient.Reached.sendable {method : HttpMethod} (h : client.Reached)
    (hm : method ∈ Wire.sentMethods) (hs : ∀ c ∈ s, normalUrlChar c = true)
    (hlen : body.length < 2 ^ 63)
    (hshort : (client.request method (pathPrefix ++ s) none body).header.length + 2 ≤ maxHeaderSize) :
    (client.request method (pathPrefix ++ s) none body).Sendable := by
  have hpre : ∀ c ∈ pathPrefix, normalUrlChar c = true := List.all_iff_forall_prop.mp
    (show (pathPrefix.all fun c => decide (normalUrlChar c = true)) = true by decide)
  refine h.good.sendable ⟨hm, rfl, fun c hc => ?_, nofun⟩ hlen hshort
  exact (List.mem_append.mp hc).elim (hpre c) (hs c)

theorem written_append_of_not {log log' : List (HTTPRequest × Int)}
    (h : ∀ entry ∈ log, ¬ IsUpdate s entry) : written (log ++ log') s = written log' s := by
  induction log with
  | nil => rfl
  | cons entry log ih =>
      rw [List.cons_append, written_cons_of_not (h entry List.mem_cons_self),
        ih fun e he => h e (List.mem_cons_of_mem _ he)]

/-- A client gets the file that its path leads to. -/
theorem Serves.wp_handleGet (h : Serves g d) (hs : PlainPath s) (hcarries : conn.Carries r)
    (hr : r.asked = ⟨.get, pathPrefix ++ s, body⟩) {i : Nat} {content : Bytes}
    (hi : (nodes g d).walk 0 (trimmed s) = some i) (hfile : nodes g d i = some (.file content))
    (hne : content ≠ []) : wp (site.handleRequest conn) (fun outcome _ => outcome =
      if conn.takes then .answered r.asked { status := 200, body := content }
      else .unsent r.asked { status := 200, body := content }) d := by
  have hpath : r.path = pathPrefix ++ s := congrArg HTTPRequest.path hr
  obtain ⟨ht, hcontent⟩ := Volume.file_of_node hfile
  have hb := Volume.bit_of_node hfile
  have hisFile := h.isFile.mpr ⟨hb, (h.sound.good hb).type.resolve_left ht⟩
  have hget := h.wp_get_file body ((follow_iff_walk hs.plain).mpr hi) hisFile
  rw [hcontent, if_neg hne] at hget
  rw [hcarries.handleRequest_eq, wp_bind, hpath, find_pathPrefix, Site.invokeServiceMethod, wp_bind,
    hr]
  refine wp_mono hget ?_
  rintro response d' rfl
  rw [wp_pure, wp_pure, HTTPResponse.wire]

/-- What was put last is what a client gets. -/
theorem Shows.wp_get {outcomes : List Outcome} (h : Shows g outcomes d) (hs : PlainPath s)
    (hcarries : conn.Carries r) (hr : r.asked = ⟨.get, pathPrefix ++ s, body⟩) {content : Bytes}
    (hwritten : Gunrock.written (log outcomes) s = some content) :
    wp (site.handleRequest conn) (fun outcome _ => outcome =
      if conn.takes then .answered r.asked { status := 200, body := content }
      else .unsent r.asked { status := 200, body := content }) d := by
  rw [h.written s hs, visible_eq_some] at hwritten
  obtain ⟨hne, i, hi, hfile⟩ := hwritten
  exact h.serves.wp_handleGet hs hcarries hr hi hfile hne

/-- A client has been asked for `/ds3/` and `s`, with one of its calls. -/
structure Connection.Sends (conn : Connection) (method : HttpMethod) (s body : Bytes)
    (client : HttpClient) : Prop where
  reached : client.Reached
  sent : method ∈ Wire.sentMethods
  path : ∀ c ∈ s, normalUrlChar c = true
  fits : (body.length : Int) ≤ 2 ^ 31 - 4096
  short : (client.request method (pathPrefix ++ s) none body).header.length + 2 ≤ maxHeaderSize
  text : conn.reads.flatten =
    (client.writeRequest (pathPrefix ++ s) (methodString method) body).2

theorem Connection.Sends.carries {method : HttpMethod} (h : conn.Sends method s body client) :
    conn.Carries (client.request method (pathPrefix ++ s) none body) where
  sendable := h.reached.sendable h.sent h.path (by have := h.fits; omega) h.short
  text := by
    have hurl : (client.request method (pathPrefix ++ s) none body).url = pathPrefix ++ s :=
      List.append_nil _
    have heq := HttpClient.writeRequest_eq client method (pathPrefix ++ s) none body
    rw [hurl] at heq
    exact h.text.trans heq

section Runs

variable {numInodes numData : Int} {before between : List Connection} {put get : Connection}
  {out₁ out₂ : List Outcome} {d₁ d₂ d₃ : Disk} {client' : HttpClient} {response : WireResponse}

/-- What a client puts, and the server acknowledges, is there, with any connections before and behind
that do not change it. -/
theorem Site.shows_put (hb : Boots numInodes numData d) (hno : Mkfs.NoOverflow numInodes numData)
    (hs : PlainPath s)
    (hbefore : ∀ conn ∈ before, conn.Plain) (hrun₁ : (site.serve before).run d = .ok (out₁, d₁))
    (hput : put.Sends .put s body client) (hrun₂ : (site.handleRequest put).run d₁ =
      .ok (.answered ⟨.put, pathPrefix ++ s, body⟩ response, d₂)) (hstatus : response.status = 200)
    (hbetween : ∀ conn ∈ between, conn.Plain)
    (hrun₃ : (site.serve between).run d₂ = .ok (out₂, d₃))
    (hkeeps : ∀ outcome ∈ out₂, ∀ entry ∈ outcome.entry, ¬ IsUpdate s entry) :
    ∃ g outcomes, Shows g outcomes d₃ ∧ Gunrock.written (log outcomes) s = some body := by
  obtain ⟨g, -, -, hd, hempty⟩ := hb.serves hno
  have h : Shows g [] d := ⟨hd, fun s _ => (visible_of_not_entry hd.sound.tree hempty _).symm⟩
  have h₁ := h.wlp_serve hbefore _ _ hrun₁
  have hplain : put.Plain := hput.carries.plain hs rfl hput.fits
  have h₂ := h₁.wlp_handleRequest site hplain _ _ hrun₂
  have h₃ := h₂.wlp_serve hbetween _ _ hrun₃
  have hentry : (Outcome.answered ⟨.put, pathPrefix ++ s, body⟩ response).entry =
      some (⟨.put, pathPrefix ++ s, body⟩, 200) := by
    rw [Outcome.entry, if_pos (find_pathPrefix s), hstatus]
  refine ⟨g, _, h₃, ?_⟩
  have hlater : ∀ entry ∈ log out₂.reverse, ¬ IsUpdate s entry := by
    intro entry hmem
    obtain ⟨outcome, hout, heq⟩ := List.mem_filterMap.mp hmem
    exact hkeeps outcome (List.mem_reverse.mp hout) entry heq
  rw [log, List.filterMap_append, List.filterMap_cons_some hentry, ← log, ← log,
    written_append_of_not hlater, written_cons_of_update ⟨rfl, .inl rfl, rfl⟩]
  rfl

/-- What a client puts, and the server acknowledges, is what another client gets, with any connections
before and in between that do not change it. -/
theorem Site.put_get (hb : Boots numInodes numData d) (hno : Mkfs.NoOverflow numInodes numData)
    (hs : PlainPath s)
    (hbefore : ∀ conn ∈ before, conn.Plain) (hrun₁ : (site.serve before).run d = .ok (out₁, d₁))
    (hput : put.Sends .put s body client) (hrun₂ : (site.handleRequest put).run d₁ =
      .ok (.answered ⟨.put, pathPrefix ++ s, body⟩ response, d₂)) (hstatus : response.status = 200)
    (hbetween : ∀ conn ∈ between, conn.Plain)
    (hrun₃ : (site.serve between).run d₂ = .ok (out₂, d₃))
    (hkeeps : ∀ outcome ∈ out₂, ∀ entry ∈ outcome.entry, ¬ IsUpdate s entry)
    (hget : get.Sends .get s [] client') :
    wp (site.handleRequest get) (fun outcome _ => outcome =
      if get.takes then .answered ⟨.get, pathPrefix ++ s, []⟩ { status := 200, body := body }
      else .unsent ⟨.get, pathPrefix ++ s, []⟩ { status := 200, body := body }) d₃ := by
  obtain ⟨g, outcomes, h₃, hwritten⟩ := shows_put hb hno hs hbefore hrun₁ hput hrun₂ hstatus hbetween
    hrun₃ hkeeps
  exact h₃.wp_get hs hget.carries rfl hwritten

/-- A client of a server on the same machine. -/
def localClient : HttpClient := .new (bytes "localhost") 8080

theorem reached_localClient : localClient.Reached :=
  .new (List.all_iff_forall_prop.mp
    (show ((bytes "localhost").all fun c => decide (c ≠ 13 ∧ c ≠ 10)) = true by decide)) (by decide)

theorem sends_whole {method : HttpMethod} {c : UInt8} (hm : method ∈ Wire.sentMethods)
    (hc : normalUrlChar c = true) (hfits : (body.length : Int) ≤ 2 ^ 31 - 4096)
    (hshort : (localClient.request method (pathPrefix ++ [c]) none body).header.length + 2 ≤
      maxHeaderSize) (h) :
    (whole (localClient.writeRequest (pathPrefix ++ [c]) (methodString method) body).2 h).Sends
      method [c] body localClient :=
  ⟨reached_localClient, hm, by simpa using hc, hfits, hshort, List.append_nil _⟩

theorem Connection.Carries.answers (h : conn.Carries r) (ht : conn.takes = true)
    (hfind : Service.find r.path = some .distributedFileSystem) {response : HTTPResponse}
    (hrun : (invokeServiceMethod r.asked).run d = .ok (response, d')) :
    (site.handleRequest conn).run d =
      .ok (.answered r.asked { toHTTPResponse := response }, d') := by
  rw [h.handleRequest_eq, hfind, ht]
  refine run_bind_ok.mpr ⟨{ toHTTPResponse := response }, d', ?_, rfl⟩
  exact run_bind_ok.mpr ⟨response, d', hrun, rfl⟩

theorem Connection.Sends.answers {method : HttpMethod} (h : conn.Sends method s body client)
    (ht : conn.takes = true) {response : HTTPResponse}
    (hrun : (invokeServiceMethod ⟨method.asked, pathPrefix ++ s, body⟩).run d = .ok (response, d')) :
    (site.handleRequest conn).run d =
      .ok (.answered ⟨method.asked, pathPrefix ++ s, body⟩ { toHTTPResponse := response }, d') :=
  h.carries.answers ht (find_pathPrefix s) hrun

/-- `PUT` of the file `a`. -/
def localPut : Connection :=
  whole (localClient.writeRequest (pathPrefix ++ [97]) (methodString .put) [120]).2 (by decide +kernel)

/-- `GET` of the file `a`. -/
def localGet : Connection :=
  whole (localClient.writeRequest (pathPrefix ++ [97]) (methodString .get) []).2 (by decide +kernel)

theorem sends_localPut : localPut.Sends .put [97] [120] localClient :=
  sends_whole (by decide) (by decide) (by decide) (by decide +kernel) _

theorem sends_localGet : localGet.Sends .get [97] [] localClient :=
  sends_whole (by decide) (by decide) (by decide) (by decide +kernel) _

/-- `PUT` of the file `b`. -/
def otherPut : Connection :=
  whole (localClient.writeRequest (pathPrefix ++ [98]) (methodString .put) [121]).2 (by decide +kernel)

theorem sends_otherPut : otherPut.Sends .put [98] [121] localClient :=
  sends_whole (by decide) (by decide) (by decide) (by decide +kernel) _

theorem plain_localGet : ∀ conn ∈ [localGet], conn.Plain := fun _ hmem =>
  List.mem_singleton.mp hmem ▸ sends_localGet.carries.plain plainPath_a rfl sends_localGet.fits

theorem plain_otherPut : ∀ conn ∈ [otherPut], conn.Plain := fun _ hmem =>
  List.mem_singleton.mp hmem ▸ sends_otherPut.carries.plain
    (.single (x := [98]) (by decide) (by constructor <;> decide)) rfl sends_otherPut.fits

theorem Site.run_serve_one {out : List Outcome} : (site.serve [conn]).run d = .ok (out, d') ↔
    ∃ outcome, (site.handleRequest conn).run d = .ok (outcome, d') ∧ out = [outcome] := by
  rw [serve, loop, run_bind_ok]
  constructor
  · rintro ⟨outcome, d₁, hrun, hout⟩
    split at hout <;> cases hout <;> exact ⟨outcome, hrun, rfl⟩
  · rintro ⟨outcome, hrun, rfl⟩
    refine ⟨outcome, d', hrun, ?_⟩
    split <;> rfl

/-- The log tells of the request that is meant. -/
theorem Connection.Carries.wlp_entry (h : conn.Carries r) : wlp (site.handleRequest conn)
    (fun outcome _ => ∀ entry ∈ outcome.entry, entry.1 = r.asked) d := by
  rw [h.handleRequest_eq]
  refine wlp_bind_of fun response d' => (wlp_pure _).mpr fun entry hentry => ?_
  split at hentry <;> rw [Outcome.entry] at hentry <;> split at hentry <;> cases hentry <;> rfl

/-- The file `a` is asked for, then it is put, and then the file `b`. -/
structure LocalRun where
  (d d₁ d₂ d₃ : Disk)
  (out₁ out₂ : List Outcome)
  response : WireResponse
  boots : Boots 32 32 d
  before : (localSite.serve [localGet]).run d = .ok (out₁, d₁)
  put : (localSite.handleRequest localPut).run d₁ =
    .ok (.answered ⟨.put, pathPrefix ++ [97], [120]⟩ response, d₂)
  status : response.status = 200
  between : (localSite.serve [otherPut]).run d₂ = .ok (out₂, d₃)

/-- The last request is not for the file `a`. -/
theorem LocalRun.keeps (run : LocalRun) :
    ∀ outcome ∈ run.out₂, ∀ entry ∈ outcome.entry, ¬ IsUpdate [97] entry := by
  obtain ⟨outcome, hrun, hout⟩ := Site.run_serve_one.mp run.between
  intro outcome' hmem entry hentry hup
  rw [hout, List.mem_singleton] at hmem
  subst hmem
  have hpath := hup.1
  rw [sends_otherPut.carries.wlp_entry _ _ hrun entry hentry] at hpath
  exact absurd hpath (show pathPrefix ++ [98] ≠ pathPrefix ++ [97] by decide)

theorem exists_localRun : Nonempty LocalRun := by
  obtain ⟨d, hd, hP⟩ := exists_boots Mkfs.mkfs_ordinary (by decide)
    (P := returns (invokeServiceMethod ⟨.get, pathPrefix ++ [97], []⟩) fun _ =>
      returns (invokeServiceMethod ⟨.put, pathPrefix ++ [97], [120]⟩) fun response _ =>
        decide (response.status = 200)) (by decide +kernel)
  obtain ⟨_, d₁, hget, hP⟩ := run_of_returns hP
  obtain ⟨response, d₂, hput, hstatus⟩ := run_of_returns hP
  have hasked : (localSite.handleRequest localGet).run d = .ok (_, d₁) := sends_localGet.answers rfl hget
  have hbefore := Site.run_serve_one.mpr ⟨_, hasked, rfl⟩
  have hanswer : (localSite.handleRequest localPut).run d₁ = .ok (_, d₂) :=
    sends_localPut.answers rfl hput
  obtain ⟨g, -, -, hs, -⟩ := hd.serves (by decide)
  have h : Keeps False g d := ⟨hs, False.elim⟩
  have h₂ := (h.wlp_serve localSite _ _ hbefore).wlp_handleRequest localSite localPut _ _ hanswer
  have hfits : otherPut.Fits := fun http hhttp => by
    rw [sends_otherPut.carries.receive] at hhttp
    cases hhttp
    exact sends_otherPut.fits
  obtain ⟨outcome, d₃, hlast, -⟩ := h₂.wp_handleRequest localSite hfits
  exact ⟨⟨d, d₁, d₂, d₃, _, _, _, hd, hbefore, hanswer, of_decide_eq_true hstatus,
    Site.run_serve_one.mpr ⟨outcome, hlast, rfl⟩⟩⟩

/-- The file `a` is put, and it is there when the file `b` has been put. -/
theorem exists_put_get : ∃ run : LocalRun,
    wp (localSite.handleRequest localGet) (fun outcome _ => outcome =
      .answered ⟨.get, pathPrefix ++ [97], []⟩ { status := 200, body := [120] }) run.d₃ := by
  obtain ⟨run⟩ := exists_localRun
  exact ⟨run, localSite.put_get run.boots (by decide) plainPath_a plain_localGet run.before
    sends_localPut run.put run.status plain_otherPut run.between run.keeps sends_localGet⟩

end Runs

end Gunrock
