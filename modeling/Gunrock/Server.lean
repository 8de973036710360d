import Gunrock.Accepting
import Gunrock.FileService
import Gunrock.HTTPClientResponse
import Gunrock.Library.Loop
import Gunrock.Listing

/-!
# The server

`gunrock.cpp`: the server takes one connection after the other, reads a request from it, asks the
service that is registered for the path and sends what it answers.  An assertion that fails while the
request is read is the end of the server, and so is a client that does not take its response, which
nothing catches; where the socket throws while a request is read the connection is given up.

The disk is touched only by a request that has been read as a whole, so whatever bytes the clients
send, the file system stays as sound as it was (`Site.serve_keeps`).
-/

namespace Gunrock

open Disk LocalFileSystem DistributedFileSystemService Text Wp

/-! ## Services -/

/-- What `isHead()`, `isGet()` and so on tell the method as. -/
def HttpMethod.asked : HttpMethod → Method
  | .get => .get
  | .head => .head
  | .post => .post
  | .put => .put
  | .delete => .delete
  | .move => .move
  | _ => .other

/-- What the services see of a request. -/
def HTTP.asked (http : HTTP) : HTTPRequest :=
  ⟨(http.method.map HttpMethod.asked).getD .other, http.path, http.body⟩

namespace FileService

variable (files : Bytes → Option Bytes) (service : FileService) (request : HTTPRequest)

/-- The handler for the request's method, which `HttpService` refuses by default. -/
def dispatch : StateM (List Bytes) (Except ClientError FileResponse) :=
  match request.method with
  | .head => head files service request
  | .get => get files service request
  | .put | .post | .delete | .move => return .error .methodNotAllowed
  | .other => return .ok { status := 501 }

/-- `invoke_service_method`, for this service. -/
def invokeServiceMethod : StateM (List Bytes) FileResponse := do
  match ← dispatch files service request with
  | .ok response => return response
  | .error ce => return { status := ce.statusCode }

end FileService

/-- What the server has besides the disk: the service for static files, and the files themselves. -/
structure Site where
  service : FileService
  files : Bytes → Option Bytes

variable (site : Site)

/-- `invoke_service_method`, with the service that was found. -/
def Site.invokeServiceMethod (request : HTTPRequest) : Option Service → FS WireResponse
  | none => return HTTPResponse.wire { status := 404 }
  | some .distributedFileSystem => do
    let response ← DistributedFileSystemService.invokeServiceMethod request
    return response.wire
  | some .file =>
    let (response, _) := (FileService.invokeServiceMethod site.files site.service request).run []
    return { response.toHTTPResponse.wire with contentType := bytes response.contentType }

/-! ## Connections -/

/-- A client, as its socket shows it. -/
structure Connection where
  /-- What is in the memory that the parser is put in. -/
  memory : Parser
  /-- What the reads return, before one of them throws. -/
  reads : List Bytes
  /-- `MySocket::read` returns up to 4096 bytes, or throws. -/
  sizes : ∀ bs ∈ reads, bs ≠ [] ∧ bs.length ≤ 4096
  /-- The client takes what is written to it. -/
  takes : Bool

/-- What comes of a connection. -/
inductive Outcome where
  /-- An assertion has failed. -/
  | aborted
  /-- There was a problem reading in the request. -/
  | dropped
  | answered (request : HTTPRequest) (response : WireResponse)
  /-- `write` has thrown. -/
  | unsent (request : HTTPRequest) (response : WireResponse)

/-- It is the end of the server. -/
def Outcome.fatal : Outcome → Bool
  | aborted | unsent _ _ => true
  | dropped | answered _ _ => false

namespace Site

/-- `handle_request` -/
def handleRequest (client : Connection) : FS Outcome :=
  match Wire.receive client.memory client.reads with
  | none => return .aborted
  | some none => return .dropped
  | some (some http) => do
    let response ← site.invokeServiceMethod http.asked (Service.find http.asked.path)
    return if client.takes then .answered http.asked response else .unsent http.asked response

/-- The loop of `main`, over the connections that are accepted. -/
def serve (clients : List Connection) : FS (List Outcome) :=
  loop site.handleRequest Outcome.fatal clients

end Site

/-! ## Any connections -/

section Requests

variable {site} {g : Geometry} {d : Disk} {request : HTTPRequest} {client : Connection}
  {clients : List Connection} {http : HTTP} {clean : Prop}

theorem Connection.nonempty (client : Connection) : [] ∉ client.reads :=
  fun h => (client.sizes [] h).1 rfl

/-- A method that a service answers without the disk. -/
theorem invokeServiceMethod_other (hget : request.method ≠ .get) (hput : request.method ≠ .put)
    (hdel : request.method ≠ .delete) : ∃ response : HTTPResponse, response.status ≠ 200 ∧
      DistributedFileSystemService.invokeServiceMethod request = pure response := by
  obtain ⟨method, path, body⟩ := request
  cases method with
  | get => exact absurd rfl hget
  | put => exact absurd rfl hput
  | delete => exact absurd rfl hdel
  | head | post | move => exact ⟨⟨405, []⟩, by decide, rfl⟩
  | other => exact ⟨⟨501, []⟩, by decide, rfl⟩

/-- A path under `/ds3/` that the parser lets through. -/
def HTTPRequest.Parsed (request : HTTPRequest) : Prop :=
  ∃ s, (∀ c ∈ s, normalUrlChar c = true) ∧ request.path = pathPrefix ++ s

/-- What is received for the distributed file system has been through the parser, if it is more than
a `CONNECT`. -/
theorem Connection.parsed (h : Wire.receive client.memory client.reads = some (some http))
    (hc : http.isConnect = false) (hs : Service.find http.path = some .distributedFileSystem) :
    http.asked.Parsed := by
  obtain ⟨state, hknown, rfl, -⟩ := Wire.known_of_receive client.nonempty h hc
  have hpre : pathPrefix <+: state.2.path := by
    rw [Service.find, List.find?_cons] at hs
    split at hs
    · rename_i hd
      exact of_decide_eq_true hd
    · rw [List.find?_cons] at hs
      split at hs <;> cases hs
  obtain ⟨s, hpath⟩ := hpre
  exact ⟨s, fun c hc => hknown.wellFormed.path.normal c (hpath ▸ List.mem_append_right _ hc),
    hpath.symm⟩

/-- A `CONNECT` is refused. -/
theorem HTTP.method_asked (hc : http.isConnect = true) : http.asked.method = .other := by
  have hm : http.method = some .connect := of_decide_eq_true hc
  rw [asked, hm]
  rfl

/-- The file system is sound, and all of its names are clean, if they have been so before. -/
structure Keeps (clean : Prop) (g : Geometry) (d : Disk) : Prop extends Serves g d where
  named : clean → Named (nodes g d)

/-- Whatever a service does, it keeps the file system. -/
theorem Keeps.wlp_invokeServiceMethod (h : Keeps clean g d) (hr : request.Parsed) :
    wlp (DistributedFileSystemService.invokeServiceMethod request)
      (fun _ d' => Keeps clean g d') d := by
  by_cases hup : request.method = .put ∨ request.method = .delete
  · refine wlp_mono (h.toServes.wlp_update ⟨hup, hr⟩) fun _ d' hd' => ?_
    rcases hd' with hext | ⟨-, hs, -, hn⟩
    · exact ⟨hext.serves, fun hc => hext.named (h.named hc)⟩
    · exact ⟨hs, fun hc => hn (h.named hc)⟩
  · rw [not_or] at hup
    by_cases hget : request.method = .get
    · obtain ⟨method, path, body⟩ := request
      obtain rfl : method = .get := hget
      obtain ⟨s, -, rfl⟩ := hr
      have hrespond : ∀ handled, wp (respond handled) (fun _ d' => Keeps clean g d') d :=
        fun handled => wp_mono (wp_respond handled) fun _ d' hd' => hd'.2 ▸ h
      rw [DistributedFileSystemService.invokeServiceMethod, wlp_bind]
      refine wlp_of_wp (wp_mono (wp_get h.idle.toHolds h.sound s body (Q := fun _ d' => d' = d)
        (fun _ => rfl) (fun _ _ _ _ => rfl) fun _ _ _ _ => rfl) ?_)
      rintro handled d' rfl
      exact wlp_of_wp (hrespond handled)
    · obtain ⟨response, -, hpure⟩ := invokeServiceMethod_other hget hup.1 hup.2
      rw [hpure, wlp_pure]
      exact h

/-- A request whose body stays clear of the end of an `int` by one block. -/
def HTTPRequest.Fits (request : HTTPRequest) : Prop := (request.body.length : Int) ≤ 2 ^ 31 - 4096

/-- A service answers whatever it is asked, as long as the body fits. -/
theorem Keeps.wp_invokeServiceMethod (h : Keeps clean g d) (hr : request.Parsed)
    (hfits : request.Fits) : wp (DistributedFileSystemService.invokeServiceMethod request)
      (fun _ d' => Keeps clean g d') d := by
  refine wp_mono (wp_and_wlp (Q := fun _ _ => True) ?_ (h.wlp_invokeServiceMethod hr))
    fun _ _ hq => hq.2
  have hrespond : ∀ handled d', wp (respond handled) (fun _ _ => True) d' := fun handled d' =>
    wp_mono (wp_respond handled) fun _ _ _ => trivial
  obtain ⟨method, path, body⟩ := request
  obtain ⟨s, -, rfl⟩ := hr
  rw [DistributedFileSystemService.invokeServiceMethod, wp_bind]
  cases method with
  | get =>
      exact wp_get h.idle.toHolds h.sound s body (fun _ => hrespond _ _)
        (fun _ _ _ _ => hrespond _ _) fun _ _ _ _ => hrespond _ _
  | put => exact wp_mono (h.toServes.wp_put hfits s) fun handled d' _ => hrespond handled d'
  | delete =>
      exact wp_del h.toServes s body (fun _ _ _ _ _ _ => hrespond _ _)
        fun _ _ _ _ _ _ _ _ _ _ _ _ => hrespond _ _
  | head | post | move | other => exact (wp_pure _).mpr (hrespond _ _)

/-- A request goes to the file system, or is answered without it. -/
theorem Site.invokeServiceMethod_cases (site : Site)
    (hr : Service.find request.path = some .distributedFileSystem → request.method = .other ∨
      request.Parsed) :
    (∃ response, site.invokeServiceMethod request (Service.find request.path) = pure response) ∨
      request.Parsed ∧ site.invokeServiceMethod request (Service.find request.path) = (do
        let response ← DistributedFileSystemService.invokeServiceMethod request
        return { toHTTPResponse := response }) := by
  rcases hs : Service.find request.path with _ | service
  · exact .inl ⟨_, rfl⟩
  cases service with
  | distributedFileSystem =>
      rcases hr hs with hother | hparsed
      · have hne : ∀ m, m ≠ .other → request.method ≠ m := fun m hm heq => hm (heq.symm.trans hother)
        obtain ⟨response, -, hpure⟩ := invokeServiceMethod_other (hne .get (by decide))
          (hne .put (by decide)) (hne .delete (by decide))
        refine .inl ⟨{ toHTTPResponse := response }, ?_⟩
        rw [invokeServiceMethod, hpure]
        rfl
      · exact .inr ⟨hparsed, rfl⟩
  | file => exact .inl ⟨_, rfl⟩

/-- What is received is no request for the file system that it would not take. -/
theorem Connection.asked (h : Wire.receive client.memory client.reads = some (some http))
    (hs : Service.find http.asked.path = some .distributedFileSystem) :
    http.asked.method = .other ∨ http.asked.Parsed := by
  cases hc : http.isConnect with
  | true => exact .inl (HTTP.method_asked hc)
  | false => exact .inr (Connection.parsed h hc hs)

variable (site client) in
/-- Whatever a client sends, the file system is kept. -/
theorem Keeps.wlp_handleRequest (h : Keeps clean g d) :
    wlp (site.handleRequest client) (fun _ d' => Keeps clean g d') d := by
  rw [Site.handleRequest]
  rcases hr : Wire.receive client.memory client.reads with _ | _ | http
  · exact (wlp_pure _).mpr h
  · exact (wlp_pure _).mpr h
  · rw [wlp_bind]
    rcases site.invokeServiceMethod_cases (Connection.asked hr) with ⟨response, heq⟩ | ⟨hp, heq⟩
    · rw [heq, wlp_pure, wlp_pure]
      exact h
    · rw [heq, wlp_bind]
      refine wlp_mono (h.wlp_invokeServiceMethod hp) fun response d' hd' => ?_
      rw [wlp_pure, wlp_pure]
      exact hd'

/-- What a client sends can be held. -/
def Connection.Fits (client : Connection) : Prop :=
  ∀ http, Wire.receive client.memory client.reads = some (some http) → http.asked.Fits

variable (site) in
/-- The server gets through with a request, whatever it is. -/
theorem Keeps.wp_handleRequest (h : Keeps clean g d) (hfits : client.Fits) :
    wp (site.handleRequest client) (fun _ d' => Keeps clean g d') d := by
  rw [Site.handleRequest]
  rcases hr : Wire.receive client.memory client.reads with _ | _ | http
  · exact (wp_pure _).mpr h
  · exact (wp_pure _).mpr h
  · rw [wp_bind]
    rcases site.invokeServiceMethod_cases (Connection.asked hr) with ⟨response, heq⟩ | ⟨hp, heq⟩
    · rw [heq, wp_pure, wp_pure]
      exact h
    · rw [heq, wp_bind]
      refine wp_mono (h.wp_invokeServiceMethod hp (hfits http hr)) fun response d' hd' => ?_
      rw [wp_pure, wp_pure]
      exact hd'

variable (site) in
/-- Whatever the clients send, the file system is kept. -/
theorem Keeps.wlp_serve (h : Keeps clean g d) :
    wlp (site.serve clients) (fun _ d' => Keeps clean g d') d :=
  wlp_loop (I := fun _ d => Keeps clean g d)
    (fun client _ _ _ h => h.wlp_handleRequest site client) (l := []) h

variable (site) in
/-- The server gets through with all that it is sent, as long as it can hold it. -/
theorem Keeps.wp_serve (h : Keeps clean g d) (hfits : ∀ client ∈ clients, client.Fits) :
    wp (site.serve clients) (fun _ d' => Keeps clean g d') d :=
  wp_loop (I := fun _ d => Keeps clean g d)
    (fun client hc _ _ h => h.wp_handleRequest site (hfits client hc)) (l := []) h

/-! ## What the clients have written -/

/-- What a connection adds to the log of the file system. -/
def Outcome.entry : Outcome → Option (HTTPRequest × Int)
  | aborted | dropped => none
  | answered request response | unsent request response =>
    if Service.find request.path = some .distributedFileSystem then some (request, response.status)
    else none

/-- The log of a run, the last entry first. -/
def log (outcomes : List Outcome) : List (HTTPRequest × Int) := outcomes.filterMap Outcome.entry

/-- A client that asks nothing of the file system but for plain paths. -/
def Connection.Plain (client : Connection) : Prop :=
  ∀ http, Wire.receive client.memory client.reads = some (some http) →
    Service.find http.path = some .distributedFileSystem →
      (∃ s, PlainPath s ∧ http.path = pathPrefix ++ s) ∧ http.asked.Fits

/-- The clients see what has been written. -/
structure Shows (g : Geometry) (outcomes : List Outcome) (d : Disk) : Prop where
  serves : Serves g d
  written : ∀ s, PlainPath s → written (log outcomes) s = visible (nodes g d) (trimmed s)

theorem Shows.wlp_service {outcomes : List Outcome} (h : Shows g outcomes d)
    (hr : ∃ s, PlainPath s ∧ request.path = pathPrefix ++ s) (hfits : request.Fits) :
    wlp (DistributedFileSystemService.invokeServiceMethod request) (fun response d' =>
      Serves g d' ∧ ∀ s, PlainPath s → Gunrock.written ((request, response.status) :: log outcomes) s =
        visible (nodes g d') (trimmed s)) d := by
  by_cases hm : request.method = .get ∨ request.method = .put ∨ request.method = .delete
  · exact wlp_of_wp (h.serves.wp_request ⟨hm, hr, hfits⟩ h.written)
  · rw [not_or, not_or] at hm
    obtain ⟨response, hstatus, hpure⟩ := invokeServiceMethod_other hm.1 hm.2.1 hm.2.2
    rw [hpure, wlp_pure]
    refine ⟨h.serves, fun s hs => ?_⟩
    rw [written_cons_of_not fun hup => hstatus hup.2.2]
    exact h.written s hs

variable (site) in
/-- After a connection the log says what the clients see. -/
theorem Shows.wlp_handleRequest {outcomes : List Outcome} (h : Shows g outcomes d)
    (hc : client.Plain) :
    wlp (site.handleRequest client) (fun outcome d' => Shows g (outcome :: outcomes) d') d := by
  have hsilent : ∀ outcome : Outcome, outcome.entry = none → Shows g (outcome :: outcomes) d :=
    fun outcome hnone => ⟨h.serves, by
      rw [log, List.filterMap_cons_none hnone]
      exact h.written⟩
  rw [Site.handleRequest]
  rcases hr : Wire.receive client.memory client.reads with _ | _ | http
  · exact (wlp_pure _).mpr (hsilent .aborted rfl)
  · exact (wlp_pure _).mpr (hsilent .dropped rfl)
  have hentry : ∀ response, (if client.takes then Outcome.answered http.asked response
      else .unsent http.asked response).entry =
        if Service.find http.path = some .distributedFileSystem then
          some (http.asked, response.status) else none := by
    intro response
    split <;> rfl
  rw [wlp_bind]
  by_cases hs : Service.find http.path = some .distributedFileSystem
  · obtain ⟨hplain, hfits⟩ := hc http hr hs
    have hasked : Service.find http.asked.path = some .distributedFileSystem := hs
    rw [hasked, Site.invokeServiceMethod, wlp_bind]
    have hservice : wlp (DistributedFileSystemService.invokeServiceMethod http.asked) _ d :=
      h.wlp_service hplain hfits
    refine wlp_mono hservice fun response d' hd' => ?_
    rw [wlp_pure, wlp_pure]
    refine ⟨hd'.1, ?_⟩
    rw [log, List.filterMap_cons_some ((hentry _).trans (if_pos hs))]
    exact hd'.2
  · have hpure : ∃ response, site.invokeServiceMethod http.asked (Service.find http.asked.path) =
        pure response := by
      rcases hfind : Service.find http.asked.path with _ | service
      · exact ⟨_, rfl⟩
      · cases service with
        | distributedFileSystem => exact absurd hfind hs
        | file => exact ⟨_, rfl⟩
    obtain ⟨response, hpure⟩ := hpure
    rw [hpure, wlp_pure, wlp_pure]
    exact hsilent _ ((hentry response).trans (if_neg hs))

/-- In every state of a run the log says what the clients see. -/
theorem Shows.wlp_serve {outcomes : List Outcome} (h : Shows g outcomes d)
    (hc : ∀ client ∈ clients, client.Plain) : wlp (site.serve clients) (fun out d' =>
      Shows g (out.reverse ++ outcomes) d') d :=
  wlp_loop (fun client hmem _ _ h => h.wlp_handleRequest site (hc client hmem)) h

/-! ## The server and its clients -/

/-- The outcomes that the bytes of a client allow, with any response. -/
inductive Connection.Yields (client : Connection) : Outcome → Prop
  | aborted : Wire.receive client.memory client.reads = none → Yields client .aborted
  | dropped : Wire.receive client.memory client.reads = some none → Yields client .dropped
  | answered {http : HTTP} {response : WireResponse} :
      Wire.receive client.memory client.reads = some (some http) → client.takes = true →
        Yields client (.answered http.asked response)
  | unsent {http : HTTP} {response : WireResponse} :
      Wire.receive client.memory client.reads = some (some http) → client.takes = false →
        Yields client (.unsent http.asked response)

/-- The client is the end of the server. -/
def Connection.fatal (client : Connection) : Bool :=
  match Wire.receive client.memory client.reads with
  | none => true
  | some none => false
  | some (some _) => !client.takes

theorem Connection.Yields.fatal_eq {outcome : Outcome} (h : client.Yields outcome) :
    outcome.fatal = client.fatal := by
  rw [Connection.fatal]
  cases h with
  | aborted hr => rw [hr, Outcome.fatal]
  | dropped hr => rw [hr, Outcome.fatal]
  | answered hr ht => rw [hr, ht, Outcome.fatal, Bool.not_true]
  | unsent hr ht => rw [hr, ht, Outcome.fatal, Bool.not_false]

theorem Site.wlp_handleRequest_yields (site : Site) (client : Connection) (d : Disk) :
    wlp (site.handleRequest client) (fun outcome _ => client.Yields outcome) d := by
  rw [handleRequest]
  rcases hr : Wire.receive client.memory client.reads with _ | _ | http
  · exact (wlp_pure _).mpr (.aborted hr)
  · exact (wlp_pure _).mpr (.dropped hr)
  · refine wlp_bind_of fun response d' => (wlp_pure _).mpr ?_
    cases ht : client.takes with
    | true => exact .answered hr ht
    | false => exact .unsent hr ht

/-- Whatever the clients send, the file system is kept, and the server gets through with all of them
up to the first one that is its end, as long as it can hold what it is sent. -/
theorem Site.serve_keeps (site : Site) {numInodes numData : Int} (hb : Boots numInodes numData d)
    (hno : Mkfs.NoOverflow numInodes numData) : ∃ g, Keeps True g d ∧ ∀ clients,
      wlp (site.serve clients) (fun outcomes d' => Keeps True g d' ∧
        List.Forall₂ Connection.Yields (upTo Connection.fatal clients) outcomes) d ∧
      ((∀ client ∈ clients, client.Fits) →
        wp (site.serve clients) (fun outcomes d' => Keeps True g d' ∧
          List.Forall₂ Connection.Yields (upTo Connection.fatal clients) outcomes) d) := by
  obtain ⟨g, -, -, hs, hempty⟩ := hb.serves hno
  have h : Keeps True g d := ⟨hs, fun _ i x j he => absurd he (hempty i x j)⟩
  refine ⟨g, h, fun clients => ?_⟩
  have hout : wlp (site.serve clients) (fun outcomes _ =>
      List.Forall₂ Connection.Yields (upTo Connection.fatal clients) outcomes) d :=
    wlp_loop_upTo (fun _ _ hyields => hyields.fatal_eq) fun client _ =>
      site.wlp_handleRequest_yields client
  exact ⟨wlp_and (h.wlp_serve site) hout, fun hfits => wp_and_wlp (h.wp_serve site hfits) hout⟩

/-- A connection over which `text` comes in one piece. -/
def whole (text : Bytes) (h : text ≠ [] ∧ text.length ≤ 4096) : Connection where
  memory := Wire.memory
  reads := [text]
  sizes _ hmem := List.mem_singleton.mp hmem ▸ h
  takes := true

/-- A byte that begins no request. -/
def strayClient : Connection := whole [0] (by decide)

/-- `PUT` of the file `a`. -/
def putClient : Connection :=
  whole (bytes "PUT /ds3/a HTTP/1.1\r\nContent-Length: 1\r\n\r\nx") (by decide +kernel)

theorem receive_strayClient : Wire.receive strayClient.memory strayClient.reads = none :=
  Option.isNone_iff_eq_none.mp
    (show (Wire.receive Wire.memory [[0]]).isNone = true by decide +kernel)

theorem receive_putClient : ∃ http, Wire.receive putClient.memory putClient.reads = some (some http) ∧
    http.asked = ⟨.put, bytes "/ds3/a", [120]⟩ := by
  have h : (Wire.receive putClient.memory putClient.reads).any (·.any fun http =>
      decide (http.asked = ⟨.put, bytes "/ds3/a", [120]⟩)) = true := by decide +kernel
  obtain ⟨received, hr, h⟩ := (Option.any_eq_true _ _).mp h
  obtain ⟨http, rfl, h⟩ := (Option.any_eq_true _ _).mp h
  exact ⟨http, hr, of_decide_eq_true h⟩

theorem fits_strayClient : strayClient.Fits := by
  intro http hhttp
  rw [receive_strayClient] at hhttp
  cases hhttp

theorem fits_putClient : putClient.Fits := by
  intro http hhttp
  obtain ⟨http', hr, hasked⟩ := receive_putClient
  rw [hr] at hhttp
  cases hhttp
  rw [hasked, HTTPRequest.Fits]
  decide

/-- A server without static files. -/
def localSite : Site := ⟨⟨bytes "static"⟩, fun _ => none⟩

/-- A request is answered, the next client is the end of the server, and the third one is not
served. -/
theorem exists_serve_keeps : ∃ g d outcomes d', Boots 32 32 d ∧
    (localSite.serve [putClient, strayClient, putClient]).run d = .ok (outcomes, d') ∧
    log outcomes = [(⟨.put, bytes "/ds3/a", [120]⟩, 200)] ∧ Keeps True g d' ∧
    List.Forall₂ Connection.Yields [putClient, strayClient] outcomes := by
  obtain ⟨d, hd, hP⟩ := exists_boots Mkfs.mkfs_ordinary (by decide)
    (P := returns (localSite.serve [putClient, strayClient, putClient]) fun outcomes _ =>
      decide (log outcomes = [(⟨.put, bytes "/ds3/a", [120]⟩, 200)])) (by decide +kernel)
  obtain ⟨outcomes, d₁, hrun, hlog⟩ := run_of_returns hP
  obtain ⟨g, -, hserve⟩ := localSite.serve_keeps hd (by decide)
  obtain ⟨outcomes', d', hrun', hkeeps, hout⟩ := (hserve [putClient, strayClient, putClient]).2
    fun client hclient => by
      simp only [List.mem_cons, List.not_mem_nil, or_false] at hclient
      rcases hclient with rfl | rfl | rfl
      · exact fits_putClient
      · exact fits_strayClient
      · exact fits_putClient
  rw [hrun] at hrun'
  cases hrun'
  have hput : putClient.fatal = false := by
    obtain ⟨http, hr, -⟩ := receive_putClient
    rw [Connection.fatal, hr]
    rfl
  have hstray : strayClient.fatal = true := by rw [Connection.fatal, receive_strayClient]
  rw [upTo, hput, upTo, hstray] at hout
  exact ⟨g, d, outcomes, d₁, hd, hrun, of_decide_eq_true hlog, hkeeps, hout⟩

end Requests

end Gunrock
