import Gunrock.Exchanging
import Gunrock.Statuses

/-!
# Answers

Whatever a connection sends, and whatever is on the disk: what the server writes as an answer, a
client takes apart into the status, the words for it and the body, in any reads
(`Site.wlp_handleRequest_read`).
-/

namespace Gunrock

open Disk LocalFileSystem DistributedFileSystemService Text Wp

/-! ## Statuses -/

/-- The statuses that the services answer with. -/
def answerStatuses : List Int := [200, 400, 403, 404, 405, 500, 501, 507]

/-- An outcome of a handler with one of them. -/
def Handled.Known (handled : Handled) : Prop := handled.status ∈ answerStatuses

variable {d : Disk} {request : HTTPRequest}

section Handlers

variable {body : Bytes} {ce : ClientError}

theorem Handled.known_ok : Handled.Known (.ok { body := body }) :=
  show (200 : Int) ∈ answerStatuses by decide

theorem Handled.known_error (h : ce ∈ [ClientError.badRequest, .forbidden, .notFound,
    .methodNotAllowed, .insufficientStorage]) : Handled.Known (.error (.clientError ce)) := by
  have hall : ∀ ce ∈ [ClientError.badRequest, .forbidden, .notFound, .methodNotAllowed,
      .insufficientStorage], ce.statusCode ∈ answerStatuses := by decide
  exact hall ce h

theorem wlp_known_error (h : ce ∈ [ClientError.badRequest, .forbidden, .notFound, .methodNotAllowed,
    .insufficientStorage]) :
    wlp (pure (.error (.clientError ce)) : FS Handled) (fun handled _ => handled.Known) d :=
  (wlp_pure _).mpr (Handled.known_error h)

theorem wlp_get_known (request : HTTPRequest) :
    wlp (DistributedFileSystemService.get request) (fun handled _ => handled.Known) d := by
  dsimp only [DistributedFileSystemService.get]
  refine wlp_bind_of fun inum d => ?_
  rw [wlp_ite]
  refine ⟨fun _ => wlp_known_error (by decide), fun _ => wlp_bind_of fun out d => ?_⟩
  cases out with
  | error e => exact wlp_known_error (by decide)
  | ok inode =>
      dsimp only
      rw [wlp_ite]
      refine ⟨fun _ => wlp_bind_of fun out d => wlp_bind_of fun ss d => ?_,
        fun _ => wlp_bind_of fun out d => ?_⟩
      · exact (wlp_pure _).mpr Handled.known_ok
      · rw [wlp_ite]
        refine ⟨fun _ => (wlp_pure _).mpr ?_, fun _ => (wlp_pure _).mpr Handled.known_ok⟩
        exact (show (500 : Int) ∈ answerStatuses by decide)

/-- The loop of `put`, where it fails. -/
theorem wlp_putWalk_known (n : Nat) (inum : Int) (path : Bytes) : wlp (putWalk n inum path)
    (fun out _ => ∀ e, out = .error e → Handled.Known (.error e)) d := by
  have hbad : ∀ d, wlp (pure (.error (.clientError .badRequest)) : FS (Except Thrown (Int × Bytes)))
      (fun out _ => ∀ e, out = .error e → Handled.Known (.error e)) d := fun d =>
    (wlp_pure _).mpr fun e he => by
      cases he
      exact Handled.known_error (by decide)
  induction n generalizing inum path d with
  | zero => exact (wlp_pure _).mpr nofun
  | succ n ih =>
      rw [putWalk]
      split
      · exact (wlp_pure _).mpr nofun
      · refine wlp_bind_of fun ret d => ?_
        rw [wlp_ite, wlp_ite]
        refine ⟨fun _ => wlp_bind_of fun inum d => ?_, fun _ => ⟨fun _ => hbad d, fun _ => ih _ _⟩⟩
        rw [wlp_ite]
        exact ⟨fun _ => hbad d, fun _ => ih _ _⟩

theorem wlp_openFile_known (p : Int) (path : Bytes) : wlp (openFile p path)
    (fun out _ => ∀ e, out = .error e → Handled.Known (.error e)) d := by
  rw [openFile]
  refine wlp_bind_of fun inum d => ?_
  rw [wlp_ite, wlp_ite]
  refine ⟨fun _ => wlp_bind_of fun inum d => ?_, fun _ => ⟨fun _ => ?_, fun _ => ?_⟩⟩
  · rw [wlp_ite]
    refine ⟨fun _ => (wlp_pure _).mpr fun e he => ?_, fun _ => (wlp_pure _).mpr nofun⟩
    cases he
    exact Handled.known_error (by decide)
  · refine (wlp_pure _).mpr fun e he => ?_
    cases he
    exact Handled.known_error (by decide)
  · exact (wlp_pure _).mpr nofun

theorem wlp_put_known (request : HTTPRequest) :
    wlp (put request) (fun handled _ => handled.Known) d := by
  dsimp only [put]
  rw [wlp_bind]
  refine wlp_mono (wlp_putWalk_known _ _ _) fun out d hout => ?_
  rcases out with e | ⟨inum, path⟩
  · exact (wlp_pure _).mpr (hout e rfl)
  · rw [putEnd, wlp_ite]
    refine ⟨fun _ => wlp_known_error (by decide), fun _ => ?_⟩
    rw [putFile, wlp_bind]
    refine wlp_mono (wlp_openFile_known _ _) fun out d hout => ?_
    cases out with
    | error e => exact (wlp_pure _).mpr (hout e rfl)
    | ok inum =>
        refine wlp_bind_of fun r d => ?_
        rw [wlp_ite]
        exact ⟨fun _ => wlp_known_error (by decide), fun _ => (wlp_pure _).mpr Handled.known_ok⟩

/-- The loop of `del`, where it fails. -/
theorem wlp_delWalk_known (n : Nat) (inum : Int) (path : Bytes) : wlp (delWalk n inum path)
    (fun out _ => ∀ e, out = .error e → Handled.Known (.error e)) d := by
  induction n generalizing inum path d with
  | zero => exact (wlp_pure _).mpr nofun
  | succ n ih =>
      rw [delWalk]
      split
      · exact (wlp_pure _).mpr nofun
      · refine wlp_bind_of fun inum d => ?_
        rw [wlp_ite, wlp_ite]
        refine ⟨fun _ => (wlp_pure _).mpr fun e he => ?_,
          fun _ => ⟨fun _ => (wlp_pure _).mpr fun e he => ?_, fun _ => ih _ _⟩⟩
        · cases he
          exact Handled.known_error (by decide)
        · cases he
          exact Handled.known_error (by decide)

theorem wlp_del_known (request : HTTPRequest) :
    wlp (del request) (fun handled _ => handled.Known) d := by
  dsimp only [del]
  rw [wlp_bind]
  refine wlp_mono (wlp_delWalk_known _ _ _) fun out d hout => ?_
  rcases out with e | ⟨inum, path⟩
  · exact (wlp_pure _).mpr (hout e rfl)
  · dsimp only
    rw [wlp_ite]
    refine ⟨fun _ => wlp_known_error (by decide), fun _ => ?_⟩
    rw [delEntry]
    refine wlp_bind_of fun dinum d => ?_
    rw [wlp_ite]
    refine ⟨fun _ => wlp_known_error (by decide), fun _ => wlp_bind_of fun ret d => ?_⟩
    rw [wlp_ite, wlp_ite, wlp_ite]
    exact ⟨fun _ => wlp_known_error (by decide), fun _ => ⟨fun _ => wlp_known_error (by decide),
      fun _ => ⟨fun _ => wlp_known_error (by decide), fun _ => (wlp_pure _).mpr Handled.known_ok⟩⟩⟩

/-- On any disk, a service that answers answers with one of the statuses. -/
theorem wlp_service_known (request : HTTPRequest) :
    wlp (DistributedFileSystemService.invokeServiceMethod request)
      (fun response _ => response.status ∈ answerStatuses) d := by
  have hdispatch : wlp (dispatch request) (fun handled _ => handled.Known) d := by
    rw [dispatch]
    split
    · exact wlp_known_error (by decide)
    · exact wlp_get_known request
    · exact wlp_put_known request
    · exact wlp_known_error (by decide)
    · exact wlp_del_known request
    · exact wlp_known_error (by decide)
    · exact (wlp_pure _).mpr (show (501 : Int) ∈ answerStatuses by decide)
  rw [DistributedFileSystemService.invokeServiceMethod, wlp_bind]
  refine wlp_mono hdispatch fun handled d hknown => ?_
  refine wlp_mono (wlp_of_wp (wp_respond handled)) fun response d' hresponse => ?_
  rw [hresponse.1]
  exact hknown

end Handlers

/-! ## What a client reads -/

/-- A response of one of the services. -/
structure WireResponse.IsAnswer (r : WireResponse) : Prop where
  streaming : r.streaming = false
  status : r.status ∈ answerStatuses
  headers : r.headers = SortedMap.empty.insert (bytes "Server") (bytes "Gunrock Web")
  contentType : 13 ∉ r.contentType ∧ 10 ∉ r.contentType

/-- The object of a client that has read `r`. -/
def WireResponse.read (r : WireResponse) : HTTPClientResponse :=
  ⟨r.body, r.status, r.statusToString⟩

section Reading

variable {r : WireResponse} {c : HTTPClientResponse} {line : Bytes} {reads : List Bytes}

theorem isHeader_server : IsHeader (bytes "Server", bytes "Gunrock Web") :=
  ⟨⟨by decide, by decide, by decide, by decide⟩, by decide, by decide⟩

/-- The words for a status are one word. -/
theorem WireResponse.scanWord_statusToString (r : WireResponse) {s : Bytes}
    (hs : s = r.statusToString ∨ s = r.statusToString ++ [13]) :
    ∃ rest, scanWord (32 :: s) = some (r.statusToString, rest) := by
  rw [statusToString] at hs ⊢
  split at hs
  · rename_i hok
    rw [if_pos hok]
    rcases hs with rfl | rfl
    · exact ⟨[], by decide⟩
    · exact ⟨[13], by decide⟩
  · rename_i hok
    rw [if_neg hok]
    rcases hs with rfl | rfl
    · exact ⟨[], by decide⟩
    · exact ⟨[13], by decide⟩

/-- All that is known from the first line. -/
theorem WireResponse.scanLine_statusLine_eq {n : Nat} (hn : r.status = n) (hlt : n < 2 ^ 31)
    (hline : line = r.statusLine ∨ line = r.statusLine ++ [13]) :
    c.scanLine line = { c with statusCode := r.status, statusMessage := r.statusToString } := by
  have hstatus : r.statusLine =
      bytes "HTTP/1.1" ++ 32 :: (decimal n ++ 32 :: r.statusToString) := by
    rw [statusLine, hn, List.append_assoc, List.append_assoc]
    rfl
  obtain ⟨s, hs, rfl⟩ : ∃ s, (s = r.statusToString ∨ s = r.statusToString ++ [13]) ∧
      line = bytes "HTTP/1.1" ++ 32 :: (decimal n ++ 32 :: s) := by
    rcases hline with rfl | rfl
    · exact ⟨_, .inl rfl, hstatus⟩
    · exact ⟨_, .inr rfl, by simp [hstatus]⟩
  have hfind : find (bytes "HTTP/1.1 ")
      (bytes "HTTP/1.1" ++ 32 :: (decimal n ++ 32 :: s)) = some 0 :=
    find_of_prefix ⟨decimal n ++ 32 :: s, rfl⟩
  have hscan : scanInt (32 :: (decimal n ++ 32 :: s)) = some ((n : Int), 32 :: s) := by
    rw [scanInt_cons (by decide), scanInt_decimal n (by decide)]
  obtain ⟨rest, hword⟩ := r.scanWord_statusToString hs
  rw [HTTPClientResponse.scanLine, if_pos (.inl hfind),
    scanWord_append (by decide) (List.all_iff_forall_prop.mp (by decide)) (by decide)]
  dsimp only
  rw [HTTPClientResponse.scanStatus, if_neg (skipSpace_ne_nil hscan), hscan]
  dsimp only
  rw [if_neg (by omega), if_neg (by omega), hword, hn]

/-- The client reads what was answered, in any reads. -/
theorem WireResponse.IsAnswer.readResponse_eq (h : r.IsAnswer) (c : HTTPClientResponse)
    (hreads : reads.flatten = r.response) : c.readResponse reads = (r.read, r.body) := by
  have hbounds : ∀ status ∈ answerStatuses, 0 ≤ status ∧ status < 2 ^ 31 := by decide
  obtain ⟨h0, hlt⟩ := hbounds _ h.status
  obtain ⟨n, hn⟩ := Int.eq_ofNat_of_zero_le h0
  have hserver : ∀ e ∈ r.headers.entries, IsHeader e := by
    intro e he
    rw [h.headers] at he
    rw [List.mem_singleton.mp he]
    exact isHeader_server
  have hheaders := isHeader_withHeaders h.streaming hserver h.contentType
  have hlines : ∀ x ∈ r.statusLine :: r.withHeaders.headers.entries.map headerLine, IsLine x := by
    refine List.forall_mem_cons.mpr ⟨isLine_statusLine hn, fun x hx => ?_⟩
    obtain ⟨e, he, rfl⟩ := List.mem_map.mp hx
    exact (hheaders e he).isLine
  -- the first line has the status, and the headers are passed over
  obtain ⟨line, lines, hline, hrest, hcons⟩ := List.forall₂_cons_left_iff.mp
    (getlines_joinLines hlines)
  rw [HTTPClientResponse.readResponse, hreads, response_eq h.streaming, find_joinLines hlines]
  have hdrop : (crlf ++ crlf ++ r.body).drop 4 = r.body := rfl
  dsimp only
  rw [List.take_left, List.drop_append, List.drop_eq_nil_of_le (Nat.le_add_right _ 4),
    Nat.add_sub_cancel_left, List.nil_append, hdrop, hcons, List.foldl_cons,
    scanLine_statusLine_eq hn (by omega) hline, IsHeader.foldl_scanLine hheaders hrest]
  rfl

end Reading

/-! ## Whatever is asked -/

section Connections

variable {site : Site} {conn : Connection}

theorem HTTPResponse.isAnswer_wire {r : HTTPResponse} (h : r.status ∈ answerStatuses) :
    r.wire.IsAnswer :=
  ⟨rfl, h, rfl, (by decide : (13 : UInt8) ∉ bytes "text/html; charset=ISO-8859-1" ∧
    (10 : UInt8) ∉ bytes "text/html; charset=ISO-8859-1")⟩

/-- The types of the contents that are served. -/
def contentTypes : List String :=
  ["text/css", "text/javascript", "text/html; charset=ISO-8859-1"]

/-- A response with one of them. -/
structure FileResponse.IsServed (response : FileResponse) : Prop where
  status : response.status ∈ answerStatuses
  contentType : response.contentType ∈ contentTypes

theorem FileService.get_served (files : Bytes → Option Bytes) (service : FileService)
    (request : HTTPRequest) (opened : List Bytes) :
    ((FileService.get files service request).run opened).1 = .error .notFound ∨
      ∃ response : FileResponse, response.IsServed ∧
        ((FileService.get files service request).run opened).1 = .ok response := by
  have hserved : ∀ (contents : Bytes) (type : String), type ∈ contentTypes →
      FileResponse.IsServed { body := contents, contentType := type } := fun contents type ht =>
    ⟨(by decide : (200 : Int) ∈ answerStatuses), ht⟩
  obtain ⟨contents, hcontents⟩ : ∃ contents,
      contents = (files (Buffer.cStr (service.basedir ++ request.path))).getD [] := ⟨_, rfl⟩
  have hrun : (FileService.get files service request).run opened =
      (if contents.length = 0 then pure (.error .notFound)
        else if endswith (service.basedir ++ request.path) cssSuffix then
          pure (.ok { body := contents, contentType := "text/css" })
        else if endswith (service.basedir ++ request.path) jsSuffix then
          pure (.ok { body := contents, contentType := "text/javascript" })
        else pure (.ok { body := contents }) :
          StateM (List Bytes) (Except ClientError FileResponse)).run
        (Buffer.cStr (service.basedir ++ request.path) :: opened) := by
    rw [hcontents]
    rfl
  rw [hrun]
  split
  · exact .inl rfl
  · refine .inr ?_
    split
    · exact ⟨_, hserved contents "text/css" (by decide), rfl⟩
    · split
      · exact ⟨_, hserved contents "text/javascript" (by decide), rfl⟩
      · exact ⟨_, hserved contents _ (by decide), rfl⟩

theorem FileService.head_served (files : Bytes → Option Bytes) (service : FileService)
    (request : HTTPRequest) (opened : List Bytes) :
    ((FileService.head files service request).run opened).1 = .error .notFound ∨
      ∃ response : FileResponse, response.IsServed ∧
        ((FileService.head files service request).run opened).1 = .ok response := by
  have hget := FileService.get_served files service request opened
  rw [FileService.head, StateT.run_bind]
  rcases hrun : (FileService.get files service request).run opened with ⟨out, opened'⟩
  rw [hrun] at hget
  rcases hget with hnone | ⟨response, h, hsome⟩
  · obtain rfl : out = .error .notFound := hnone
    exact .inl rfl
  · obtain rfl : out = .ok response := hsome
    exact .inr ⟨{ response with body := [] }, ⟨h.status, h.contentType⟩, rfl⟩

/-- Whatever is asked for, the other service gives an answer too. -/
theorem FileService.served (files : Bytes → Option Bytes) (service : FileService)
    (request : HTTPRequest) (opened : List Bytes) :
    ((FileService.invokeServiceMethod files service request).run opened).1.IsServed := by
  have hstatus : ∀ status ∈ answerStatuses, FileResponse.IsServed { status := status } :=
    fun status hs => ⟨hs, (by decide : "text/html; charset=ISO-8859-1" ∈ contentTypes)⟩
  have hanswer : ((FileService.dispatch files service request).run opened).1 = .error .notFound ∨
      (∃ response : FileResponse, response.IsServed ∧
        ((FileService.dispatch files service request).run opened).1 = .ok response) →
      ((FileService.invokeServiceMethod files service request).run opened).1.IsServed := by
    intro hdispatch
    rw [FileService.invokeServiceMethod, StateT.run_bind]
    rcases hrun : (FileService.dispatch files service request).run opened with ⟨out, opened'⟩
    rw [hrun] at hdispatch
    rcases hdispatch with hnone | ⟨response, h, hsome⟩
    · obtain rfl : out = .error .notFound := hnone
      exact hstatus 404 (by decide)
    · obtain rfl : out = .ok response := hsome
      exact h
  obtain ⟨method, path, body⟩ := request
  cases method with
  | get => exact hanswer (FileService.get_served files service _ opened)
  | head => exact hanswer (FileService.head_served files service _ opened)
  | put | post | delete | move => exact hstatus 405 (by decide)
  | other => exact hstatus 501 (by decide)

theorem FileResponse.IsServed.isAnswer {response : FileResponse} (h : response.IsServed) :
    { response.toHTTPResponse.wire with
      contentType := bytes response.contentType : WireResponse }.IsAnswer where
  streaming := rfl
  status := h.status
  headers := rfl
  contentType := by
    have hall : ∀ type ∈ contentTypes, 13 ∉ bytes type ∧ 10 ∉ bytes type := by decide
    exact hall _ h.contentType

/-- Whatever the server answers, over whatever connection and on whatever disk, a client reads, in any
reads: the status, the words for it and the body. -/
theorem Site.wlp_handleRequest_read (site : Site) (conn : Connection) (d : Disk) :
    wlp (site.handleRequest conn) (fun outcome _ => ∀ request response,
      outcome = .answered request response → ∀ (c : HTTPClientResponse) (reads : List Bytes),
        reads.flatten = response.response →
          c.readResponse reads = (response.read, response.body)) d := by
  have hservice : ∀ request service, wlp (site.invokeServiceMethod request service)
      (fun response _ => response.IsAnswer) d := by
    intro request service
    cases service with
    | none => exact (wlp_pure _).mpr (HTTPResponse.isAnswer_wire (by decide))
    | some service =>
        cases service with
        | distributedFileSystem =>
            rw [Site.invokeServiceMethod, wlp_bind]
            exact wlp_mono (wlp_service_known request) fun response d' h =>
              (wlp_pure _).mpr (HTTPResponse.isAnswer_wire h)
        | file => exact (wlp_pure _).mpr (FileService.served _ _ _ _).isAnswer
  rw [Site.handleRequest]
  rcases Wire.receive conn.memory conn.reads with _ | _ | http
  · exact (wlp_pure _).mpr fun _ _ heq => by cases heq
  · exact (wlp_pure _).mpr fun _ _ heq => by cases heq
  · dsimp only
    rw [wlp_bind]
    refine wlp_mono (hservice _ _) fun response d' h => (wlp_pure _).mpr ?_
    intro request response' heq c reads hreads
    split at heq
    · cases heq
      exact h.readResponse_eq c hreads
    · cases heq

end Connections

/-! ## From client to client -/

section Runs

variable {site : Site} {d d₁ d₂ d₃ : Disk} {numInodes numData : Int} {s body : Bytes}
  {before between : List Connection} {put get : Connection} {out₁ out₂ : List Outcome}
  {client client' : HttpClient} {response : WireResponse}

/-- What a client puts, and the server acknowledges, is what another client reads when it has asked
for it, with any connections before and in between that do not change it. -/
theorem Site.put_read (hb : Boots numInodes numData d) (hno : Mkfs.NoOverflow numInodes numData)
    (hs : PlainPath s)
    (hbefore : ∀ conn ∈ before, conn.Plain) (hrun₁ : (site.serve before).run d = .ok (out₁, d₁))
    (hput : put.Sends .put s body client) (hrun₂ : (site.handleRequest put).run d₁ =
      .ok (.answered ⟨.put, pathPrefix ++ s, body⟩ response, d₂)) (hstatus : response.status = 200)
    (hbetween : ∀ conn ∈ between, conn.Plain)
    (hrun₃ : (site.serve between).run d₂ = .ok (out₂, d₃))
    (hkeeps : ∀ outcome ∈ out₂, ∀ entry ∈ outcome.entry, ¬ IsUpdate s entry)
    (hget : get.Sends .get s [] client') (htakes : get.takes = true) :
    wp (site.handleRequest get) (fun outcome _ => ∃ response,
      outcome = .answered ⟨.get, pathPrefix ++ s, []⟩ response ∧
        ∀ (c : HTTPClientResponse) (reads : List Bytes), reads.flatten = response.response →
          c.readResponse reads = (⟨body, 200, bytes "OK"⟩, body)) d₃ := by
  obtain ⟨g, outcomes, h₃, hwritten⟩ := site.shows_put hb hno hs hbefore hrun₁ hput hrun₂ hstatus
    hbetween hrun₃ hkeeps
  refine wp_mono (h₃.wp_get hs hget.carries rfl hwritten) ?_
  rintro outcome d' rfl
  rw [if_pos htakes]
  refine ⟨_, rfl, fun c reads hreads => ?_⟩
  let answer : HTTPResponse := { status := 200, body := body }
  have h : answer.wire.IsAnswer :=
    HTTPResponse.isAnswer_wire (show (200 : Int) ∈ answerStatuses by decide)
  exact h.readResponse_eq c hreads

/-- The file `a` is put, and its byte is read in the end. -/
theorem exists_put_read : ∃ run : LocalRun,
    wp (localSite.handleRequest localGet) (fun outcome _ => ∃ response,
      outcome = .answered ⟨.get, pathPrefix ++ [97], []⟩ response ∧
        ∀ (c : HTTPClientResponse) (reads : List Bytes), reads.flatten = response.response →
          c.readResponse reads = (⟨[120], 200, bytes "OK"⟩, [120])) run.d₃ := by
  obtain ⟨run⟩ := exists_localRun
  exact ⟨run, localSite.put_read run.boots (by decide) plainPath_a plain_localGet run.before
    sends_localPut run.put run.status plain_otherPut run.between run.keeps sends_localGet rfl⟩

end Runs

end Gunrock
