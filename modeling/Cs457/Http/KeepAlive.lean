import Cs457.Http.Delimiting
import Cs457.Lib.Reader

/-!
# HTTP server — connections that are kept

The answers on a connection reach the client as one stream of bytes. A client takes a status line,
the headers up to an empty line and as many bytes as `Content-Length` says, and begins anew with
what is left. In this way it gets the pages that it asked for, in order.

* **`reads_readResponse`** — the client finds the end of a response that has a length.
* **`HttpServer.page`** — what a file server owes for a path.
* **`pages_read_back`** — the stream of a connection.
-/

namespace Cs457.Http

open Reading

/-! ## A client -/

structure Received where
  statusLine : Bytes
  headers : List (Bytes × Bytes)
  body : Bytes
  deriving DecidableEq, Repr

/-- The line up to the first CRLF, and what is behind it. -/
def splitLine : Bytes → Option (Bytes × Bytes)
  | [] => none
  | b :: rest =>
    if b = carriageReturn ∧ rest.head? = some newline then some ([], rest.tail)
    else (splitLine rest).map fun (line, others) => (b :: line, others)

def readLine : Reader Bytes := splitLine

/-- Headers up to an empty line, `turns` of them at most. -/
def readHeaders : ℕ → Reader (List (Bytes × Bytes))
  | 0 => failure
  | turns + 1 => do
    let line ← readLine
    if line = [] then return []
    let others ← readHeaders turns
    -- the value stands behind a colon and a blank
    return ((headerOf line).1, (headerOf line).2.drop 1) :: others

def decimal (s : Bytes) : ℕ := s.foldl (fun n b => 10 * n + (b.toNat - 48)) 0

def lengthOf (headers : List (Bytes × Bytes)) : Option ℕ :=
  (headers.find? fun h => h.1 = contentLength).map fun h => decimal h.2

/-- As many bytes as the headers say. -/
def readBody (statusLine : Bytes) (headers : List (Bytes × Bytes)) : Reader Received :=
  match lengthOf headers with
  | none => failure
  | some length => do return ⟨statusLine, headers, ← takeBytes length⟩

def readResponse : Reader Received := do
  let statusLine ← readLine
  let input ← get
  let headers ← readHeaders input.length
  readBody statusLine headers

/-! ## The end of a response -/

/-- A line is read to its end. -/
theorem splitLine_crlf {line : Bytes} (h : OneLine line) (rest : Bytes) :
    splitLine (line ++ crlf ++ rest) = some (line, rest) := by
  induction line with
  | nil => rfl
  | cons b line ih =>
    obtain ⟨⟨hb, -⟩, hline⟩ := oneLine_cons.mp h
    rw [List.cons_append, List.cons_append, splitLine, if_neg fun heq => hb heq.1, ih hline]
    rfl

theorem reads_readLine {line : Bytes} (h : OneLine line) : Reads readLine (line ++ crlf) line :=
  splitLine_crlf h

/-- A header line is split at its first colon. -/
theorem headerOf_line {h : Bytes × Bytes} (hname : colon ∉ h.1) :
    headerOf (h.1 ++ ascii ": " ++ h.2) = (h.1, space :: h.2) := by
  have hline : h.1 ++ ascii ": " ++ h.2 = h.1 ++ colon :: space :: h.2 := by
    rw [show ascii ": " = [colon, space] from by decide +kernel, List.append_assoc]
    rfl
  have hfind : find (h.1 ++ colon :: space :: h.2) colon 0 = some h.1.length := by
    have hfirst := find_append [] hname (space :: h.2)
    rwa [List.nil_append, List.length_nil, Nat.zero_add] at hfirst
  rw [hline, headerOf, hfind]
  simp

/-- The headers of a response, one for each turn. -/
theorem reads_readHeaders {headers : List (Bytes × Bytes)} (h : ∀ x ∈ headers, IsHeader x)
    {turns : ℕ} (hturns : headers.length < turns) :
    Reads (readHeaders turns)
      (headers.flatMap (fun x => x.1 ++ ascii ": " ++ x.2 ++ crlf) ++ crlf) headers := by
  induction headers generalizing turns with
  | nil =>
    -- The empty line ends the loop.
    obtain ⟨turns, rfl⟩ := Nat.exists_eq_succ_of_ne_zero (by omega : turns ≠ 0)
    have hempty : OneLine [] := by decide
    apply (reads_readLine hempty).bind_nil
    rw [if_pos rfl]
    exact Reads.pure []
  | cons x headers ih =>
    obtain ⟨turns, rfl⟩ := Nat.exists_eq_succ_of_ne_zero (by omega : turns ≠ 0)
    obtain ⟨⟨hname, hcolon⟩, hvalue⟩ := h x List.mem_cons_self
    have hline : OneLine (x.1 ++ ascii ": " ++ x.2) :=
      oneLine_append.mpr ⟨oneLine_append.mpr ⟨hname, by decide +kernel⟩, hvalue⟩
    -- A header line is not empty: it holds at least the colon.
    have hne : x.1 ++ ascii ": " ++ x.2 ≠ [] := by
      rw [show ascii ": " = [colon, space] from by decide +kernel]
      simp
    have hrest := @ih (fun y hy => h y (List.mem_cons_of_mem x hy)) turns
      (by rw [List.length_cons] at hturns; omega)
    rw [List.flatMap_cons, List.append_assoc]
    apply (reads_readLine hline).bind
    rw [if_neg hne, headerOf_line hcolon]
    exact hrest.bind_pure

/-- A number as `to_string` writes it is read as that number. -/
theorem decimal_toString (n : ℕ) : decimal (ascii (toString n)) = n := by
  have hdigits : (toString n).toList = Nat.toDigits 10 n := Nat.toList_repr
  have hfold : ∀ (cs : List Char), (∀ c ∈ cs, c.isDigit = true) → ∀ m,
      (cs.map fun c => UInt8.ofNat c.toNat).foldl (fun n b => 10 * n + (b.toNat - 48)) m
        = Nat.ofDigitChars 10 cs m := by
    intro cs hcs
    induction cs with
    | nil => exact fun m => rfl
    | cons c cs ih =>
      intro m
      -- a digit is a byte
      have hc := hcs c List.mem_cons_self
      rw [Char.isDigit_iff_toNat, show '9'.toNat = 57 from rfl] at hc
      rw [List.map_cons, List.foldl_cons, ih (fun d hd => hcs d (List.mem_cons_of_mem c hd)),
        Nat.ofDigitChars_cons, UInt8.toNat_ofNat', Nat.mod_eq_of_lt (by omega)]
      rfl
  unfold decimal ascii
  rw [hdigits, hfold _ (fun c hc => Nat.isDigit_of_mem_toDigits (by decide) (by decide) hc),
    Nat.ofDigitChars_ten_toDigits]

/-- One Content-Length is the length of the body. -/
theorem lengthOf_eq {headers : List (Bytes × Bytes)} {n : ℕ}
    (h : headers.filter (fun x => x.1 = contentLength) = [(contentLength, ascii (toString n))]) :
    lengthOf headers = some n := by
  rw [lengthOf, ← List.head?_filter, h]
  exact congrArg some (decimal_toString n)

/-- A header takes a byte at least. -/
theorem length_lt_headers (headers : List (Bytes × Bytes)) : headers.length <
    (headers.flatMap (fun x => x.1 ++ ascii ": " ++ x.2 ++ crlf) ++ crlf).length := by
  induction headers with
  | nil => decide
  | cons x headers ih =>
    have hcrlf : crlf.length = 2 := rfl
    simp only [List.flatMap_cons, List.length_append, List.length_cons] at ih ⊢
    omega

/-- **The end of a response** that has a length is found, whatever comes behind it. -/
theorem reads_readResponse {sent statusLine body : Bytes} {headers : List (Bytes × Bytes)}
    (h : IsResponse sent statusLine headers body)
    (hlength : headers.filter (fun x => x.1 = contentLength)
      = [(contentLength, ascii (toString body.length))]) :
    Reads readResponse sent ⟨statusLine, headers, body⟩ := by
  obtain ⟨hbytes, hstatus, hheaders⟩ := h
  have hassoc : sent = (statusLine ++ crlf) ++
      ((headers.flatMap (fun x => x.1 ++ ascii ": " ++ x.2 ++ crlf) ++ crlf) ++ body) := by
    rw [hbytes]
    simp only [List.append_assoc]
  rw [hassoc]
  apply (reads_readLine hstatus).bind
  apply Reads.get
  intro rest
  -- there are as many turns as bytes are left, so that they suffice for the headers
  have hturns : headers.length < (((headers.flatMap
      (fun x => x.1 ++ ascii ": " ++ x.2 ++ crlf) ++ crlf) ++ body) ++ rest).length := by
    have hlt := length_lt_headers headers
    simp only [List.length_append] at hlt ⊢
    omega
  have hbody : Reads (readBody statusLine headers) body ⟨statusLine, headers, body⟩ := by
    unfold readBody
    rw [lengthOf_eq hlength]
    exact (reads_takeBytes body).bind_pure
  exact (reads_readHeaders hheaders hturns).bind hbody rest

/-! ## The answers of a server -/

/-- A response has at least its status line. -/
theorem IsResponse.ne_nil {sent statusLine body : Bytes} {headers : List (Bytes × Bytes)}
    (h : IsResponse sent statusLine headers body) : sent ≠ [] := by
  rw [h.bytes]
  simp [crlf]

def HttpResponse.statusLine (r : HttpResponse) : Bytes :=
  ascii "HTTP/1.1" ++ space :: ascii (toString r.statusCode) ++ space :: r.reasonPhrase

namespace HttpServer

variable {server : HttpServer} {world : World}

/-- **What a file server owes for a path**: a status line and a body, which is all that the file has
at the time. -/
def page (server : HttpServer) (world : World) (path : Bytes) : Except Bytes (Bytes × Bytes) :=
  if isAbsolute path = false then .ok (ascii "HTTP/1.1 400 Bad Request", [])
  else match world.entry (cString (join server.basePath path)) with
    | .error what => .error what
    | .ok none => .ok (ascii "HTTP/1.1 404 Not Found", [])
    | .ok (some .directory) => .ok (ascii "HTTP/1.1 404 Not Found", [])
    | .ok (some (.file f)) =>
      if f.opens then .ok (ascii "HTTP/1.1 200 OK", f.content)
      else .ok (ascii "HTTP/1.1 503 Service Unavailable", ascii "Server overloaded")

/-- The pages for the paths that are asked for on a connection, `env n` being the world at the
`n`-th. A file system that fails ends the connection. -/
def pages (server : HttpServer) (env : ℕ → World) : List Bytes → List (Bytes × Bytes)
  | [] => []
  | path :: paths =>
    match server.page (env 0) path with
    | .ok page => page :: server.pages (fun n => env (n + 1)) paths
    | .error _ => [(ascii "HTTP/1.1 500 Internal Server Error", [])]

/-- The page for a path is the status line and the body of the response. -/
theorem page_of_ok {path : Bytes} {response : HttpResponse}
    (h : server.servePath world path = .ok response) :
    server.page world path = .ok (response.statusLine, response.body) := by
  unfold servePath at h
  unfold page
  split at h
  · next hrelative =>
    cases h
    rw [if_pos hrelative]
    have hline : ascii "HTTP/1.1 400 Bad Request"
        = (HttpResponse.ofStatus 400 noContent none 0).statusLine := by decide +kernel
    rw [hline]
    rfl
  · next habsolute =>
    -- a path that is not there and a directory are answered alike
    have hmissing : ascii "HTTP/1.1 404 Not Found"
        = (HttpResponse.ofStatus 404 noContent none 0).statusLine := by decide +kernel
    rw [if_neg habsolute]
    cases hentry : world.entry (cString (join server.basePath path)) with
    | error what =>
      simp only [hentry] at h
      cases h
    | ok entry =>
      rcases entry with _ | _ | f
      · simp only [hentry] at h
        cases h
        simp only [hmissing]
        rfl
      · simp only [hentry] at h
        cases h
        simp only [hmissing]
        rfl
      · simp only [hentry] at h
        cases hopens : f.opens with
        | true =>
          rw [if_pos hopens] at h
          cases h
          -- `sendfile` delivers as many bytes as `file_size` has said, which is the whole file
          have hbody : f.content.take f.fileSize = f.content := by
            rw [f.size_content, List.take_length]
          have hline : ascii "HTTP/1.1 200 OK" = ascii "HTTP/1.1" ++ space ::
              ascii (toString 200) ++ space :: ascii (statusReason 200) := by decide +kernel
          simp only [hopens, if_true, hline]
          exact congrArg (fun body => Except.ok (_, body)) hbody.symm
        | false =>
          rw [if_neg (by simp [hopens])] at h
          cases h
          have hline : ascii "HTTP/1.1 503 Service Unavailable" = ascii "HTTP/1.1" ++ space ::
              ascii (toString 503) ++ space :: ascii (statusReason 503) := by decide +kernel
          simp only [hopens, hline]
          rfl

/-- Where serving throws there is no page. -/
theorem page_of_error {path : Bytes} {e : HttpFault} (h : server.servePath world path = .error e) :
    ∃ what, server.page world path = .error what := by
  unfold servePath at h
  unfold page
  split at h
  · cases h
  · next habsolute =>
    rw [if_neg habsolute]
    cases hentry : world.entry (cString (join server.basePath path)) with
    | error what => exact ⟨what, rfl⟩
    | ok entry =>
      rcases entry with _ | _ | f
      · simp only [hentry] at h
        cases h
      · simp only [hentry] at h
        cases h
      · -- a file that is there is answered, whether or not it can be opened
        simp only [hentry] at h
        split at h <;> cases h

/-- What is sent for a response is read back. -/
theorem reads_sendResponse (hnow : OneLine world.now) {r : HttpResponse} (h : r.Framed) :
    Reads readResponse (sendResponse world r)
      ⟨r.statusLine, r.responseHeaders ++ addedHeaders world, r.body⟩ ∧
      sendResponse world r ≠ [] := by
  have hfilter : (addedHeaders world).filter (fun h => h.1 = contentLength) = [] := rfl
  have hresponse : IsResponse (sendResponse world r) r.statusLine
      (r.responseHeaders ++ addedHeaders world) r.body :=
    isResponse_makeHeader
      (r := { r with responseHeaders := r.responseHeaders ++ addedHeaders world }) h.reasonPhrase
      (fun x hx => (List.mem_append.mp hx).elim (h.headers x) (isHeader_added hnow x)) r.body
  refine ⟨reads_readResponse hresponse ?_, hresponse.ne_nil⟩
  rw [List.filter_append, hfilter, List.append_nil, h.length]

/-- What is sent when the file system fails. -/
theorem reads_failure : ∃ headers, Reads readResponse
    (HttpResponse.ofStatus 500 noContent none 0).makeHeader
      ⟨ascii "HTTP/1.1 500 Internal Server Error", headers, []⟩ ∧
    (HttpResponse.ofStatus 500 noContent none 0).makeHeader ≠ [] := by
  have hframed : (HttpResponse.ofStatus 500 noContent none 0).Framed :=
    framed_noContent (by decide +kernel)
  have hresponse := isResponse_makeHeader hframed.reasonPhrase hframed.headers []
  have hline : ascii "HTTP/1.1 500 Internal Server Error"
      = (HttpResponse.ofStatus 500 noContent none 0).statusLine := by decide +kernel
  rw [List.append_nil] at hresponse
  rw [hline]
  exact ⟨noContent, reads_readResponse hresponse rfl, hresponse.ne_nil⟩

/-- Every answer is a response that is read back. Induction on the results of `recv`. -/
theorem answers_read {server : HttpServer} {text : Bytes}
    (hmime : server.mimeDb = .create text (ascii "application/octet-stream"))
    {env : ℕ → World} (htimes : ∀ n, (env n).Timed) {data paths : List Bytes}
    (hpaths : data.map (fun block => (HttpParser.parseHeaders block).path) = paths.map .ok) :
    ∃ received : List Received, List.Forall₂ (fun x sent => Reads readResponse sent x ∧ sent ≠ [])
        received (server.connAcceptor env data) ∧
      received.map (fun x => (x.statusLine, x.body)) = server.pages env paths := by
  induction data generalizing env paths with
  | nil =>
    obtain rfl := List.map_eq_nil_iff.mp hpaths.symm
    exact ⟨[], .nil, rfl⟩
  | cons block data ih =>
    cases paths with
    | nil => cases hpaths
    | cons path paths =>
      rw [List.map_cons, List.map_cons, List.cons.injEq] at hpaths
      obtain ⟨hpath, hrest⟩ := hpaths
      cases block with
      -- no bytes have no path
      | nil => cases hpath
      | cons b block =>
        have hget : server.serveGet (env 0) (HttpParser.parseHeaders (b :: block))
            = server.servePath (env 0) path := by
          unfold serveGet
          rw [hpath]
          rfl
        cases hserve : server.servePath (env 0) path with
        | ok response =>
          obtain ⟨received, hreads, hpages⟩ := ih (fun n => htimes (n + 1)) hrest
          have hframed := servePath_framed hmime (htimes 0) hserve
          refine ⟨⟨response.statusLine, response.responseHeaders ++ addedHeaders (env 0),
            response.body⟩ :: received, ?_, ?_⟩
          · simp only [connAcceptor, hget, hserve]
            exact .cons (reads_sendResponse (htimes 0).1 hframed) hreads
          · simp only [pages, page_of_ok hserve, List.map_cons, hpages]
        | error e =>
          obtain ⟨what, rfl⟩ := servePath_error hserve
          obtain ⟨what', hpage⟩ := page_of_error hserve
          obtain ⟨headers, hreads⟩ := reads_failure
          refine ⟨[⟨ascii "HTTP/1.1 500 Internal Server Error", headers, []⟩], ?_, ?_⟩
          · simp only [connAcceptor, hget, hserve]
            exact .cons hreads .nil
          · simp only [pages, hpage, List.map_cons, List.map_nil]

/-- **The stream of a connection.** When each result of `recv` has a path in its first line, the
client takes the bytes of the whole connection apart into the pages for these paths, one for each
and in their order. -/
theorem pages_read_back {server : HttpServer} {text : Bytes}
    (hmime : server.mimeDb = .create text (ascii "application/octet-stream"))
    {env : ℕ → World} (htimes : ∀ n, (env n).Timed) {data paths : List Bytes}
    (hpaths : data.map (fun block => (HttpParser.parseHeaders block).path) = paths.map .ok) :
    ∃ received, readAll readResponse (server.connAcceptor env data).flatten = some received ∧
      received.map (fun x => (x.statusLine, x.body)) = server.pages env paths := by
  obtain ⟨received, hreads, hpages⟩ := answers_read hmime htimes hpaths
  exact ⟨received, readAll_flatten hreads, hpages⟩

/-- A world whose only file is not empty. -/
def greeting : World where
  entry p := .ok (if p = ascii "/var/www/a" then some (.file (.ofContent (ascii "hi"))) else none)
  now := []

/-- Two requests on a connection, of which the second one finds nothing. -/
theorem pages_read_back_two : ∃ received, readAll readResponse
      (emptyMimeServer.connAcceptor (fun _ => greeting)
        [getA.bytes, ascii "GET /b HTTP/1.1"]).flatten = some received ∧
    received.map (fun x => (x.statusLine, x.body))
      = [(ascii "HTTP/1.1 200 OK", ascii "hi"), (ascii "HTTP/1.1 404 Not Found", [])] := by
  have hempty : OneLine [] := by decide
  have htimes : greeting.Timed := by
    refine ⟨hempty, fun p f h => ?_⟩
    have hentry : (if p = ascii "/var/www/a" then some (Entry.file (.ofContent (ascii "hi")))
        else none) = some (.file f) := Except.ok.inj h
    split at hentry
    · cases hentry
      exact hempty
    · cases hentry
  have hpaths : [getA.bytes, ascii "GET /b HTTP/1.1"].map
      (fun block => (HttpParser.parseHeaders block).path) = [ascii "/a", ascii "/b"].map .ok := by
    decide +kernel
  have hpages : emptyMimeServer.pages (fun _ => greeting) [ascii "/a", ascii "/b"]
      = [(ascii "HTTP/1.1 200 OK", ascii "hi"), (ascii "HTTP/1.1 404 Not Found", [])] := by
    decide +kernel
  rw [← hpages]
  exact pages_read_back rfl (fun _ => htimes) hpaths

end HttpServer

end Cs457.Http
