import Cs457.Http.MimeTypes
import Cs457.Http.Segmentation

/-!
# HTTP server — where responses end

A client that keeps its connection finds the end of a response by its `Content-Length`. All the
responses of `serve_get` have one that fits their bodies, and so has the one to a failed call of
the file system. The one to a request without a path has none.

* **`selfDelimiting_sendResponse`** — a response with the right headers.
* **`servePath_framed`** — the responses of `serve_get` have them.
* **`selfDelimiting_iff`** — when the answer to a block of bytes can be delimited.
-/

namespace Cs457.Http

/-- A text within one line. -/
def OneLine (s : Bytes) : Prop := carriageReturn ∉ s ∧ newline ∉ s

instance (s : Bytes) : Decidable (OneLine s) := inferInstanceAs (Decidable (_ ∧ _))

def contentLength : Bytes := ascii "Content-Length"

/-- A header that fills one line, with a name that ends at the colon. -/
structure IsHeader (h : Bytes × Bytes) : Prop where
  name : OneLine h.1 ∧ colon ∉ h.1
  value : OneLine h.2

/-- The bytes are a status line and a header block that is ended by an empty line, then a body. -/
structure IsResponse (sent statusLine : Bytes) (headers : List (Bytes × Bytes)) (body : Bytes) :
    Prop where
  bytes : sent = statusLine ++ crlf ++
    headers.flatMap (fun h => h.1 ++ ascii ": " ++ h.2 ++ crlf) ++ crlf ++ body
  statusLine : OneLine statusLine
  headers : ∀ h ∈ headers, IsHeader h

/-- **The bytes tell where they end**: they are a response with one `Content-Length`, the length of
the body. -/
def SelfDelimiting (sent : Bytes) : Prop :=
  ∃ statusLine headers body, IsResponse sent statusLine headers body ∧
    headers.filter (fun h => h.1 = contentLength) = [(contentLength, ascii (toString body.length))]

/-- The times in headers are formatted on one line. -/
def World.Timed (world : World) : Prop :=
  OneLine world.now ∧ ∀ path f, world.entry path = .ok (some (.file f)) → OneLine f.modified

/-! ## Texts within one line -/

theorem oneLine_append {s t : Bytes} : OneLine (s ++ t) ↔ OneLine s ∧ OneLine t := by
  unfold OneLine
  simp only [List.mem_append, not_or]
  tauto

theorem oneLine_cons {b : UInt8} {s : Bytes} :
    OneLine (b :: s) ↔ (b ≠ carriageReturn ∧ b ≠ newline) ∧ OneLine s := by
  unfold OneLine
  simp only [List.mem_cons, not_or]
  tauto

/-- A number is written with digits. -/
theorem oneLine_toString (n : ℕ) : OneLine (ascii (toString n)) := by
  -- the digits lie above both line ends
  have hdigit : ∀ b ∈ ascii (toString n), 48 ≤ b.toNat := by
    intro b hb
    obtain ⟨c, hc, rfl⟩ := List.mem_map.mp hb
    have hc' : c ∈ Nat.toDigits 10 n := by
      rwa [show (toString n).toList = Nat.toDigits 10 n from Nat.toList_repr] at hc
    have hdigit := Nat.isDigit_of_mem_toDigits (by decide) (by decide) hc'
    rw [Char.isDigit_iff_toNat, show '0'.toNat = 48 from rfl,
      show '9'.toNat = 57 from rfl] at hdigit
    rw [UInt8.toNat_ofNat', Nat.mod_eq_of_lt (by omega)]
    omega
  constructor
  · exact fun hmem => absurd (hdigit _ hmem) (by decide)
  · exact fun hmem => absurd (hdigit _ hmem) (by decide)

/-- No piece has a blank in it. -/
theorem mem_splitBlanks {line piece : Bytes} (h : piece ∈ splitBlanks line) :
    ∀ b ∈ piece, isBlank b = false := by
  -- induction on the line, as `splitBlanks` recurses
  induction line generalizing piece with
  | nil =>
    rw [splitBlanks, List.mem_singleton] at h
    subst h
    exact fun b hb => absurd hb List.not_mem_nil
  | cons a line ih =>
    unfold splitBlanks at h
    split at h
    · rcases List.mem_cons.mp h with rfl | h
      · exact fun b hb => absurd hb List.not_mem_nil
      · exact ih h
    · next ha =>
      have ha' : isBlank a = false := Bool.eq_false_iff.mpr ha
      split at h
      · rw [List.mem_singleton.mp h]
        intro b hb
        rw [List.mem_singleton.mp hb]
        exact ha'
      · next first others hpieces =>
        rw [hpieces] at ih
        rcases List.mem_cons.mp h with rfl | h
        · intro b hb
          rcases List.mem_cons.mp hb with rfl | hb
          · exact ha'
          · exact ih List.mem_cons_self b hb
        · exact ih (List.mem_cons_of_mem _ h)

/-- A token is one of the pieces. -/
theorem mem_tokens {line token : Bytes} (h : token ∈ tokens line) : token ∈ splitBlanks line := by
  unfold tokens at h
  cases hpieces : splitBlanks line with
  | nil =>
    rw [hpieces] at h
    cases h
  | cons piece others =>
    rw [hpieces] at h
    rcases List.mem_cons.mp h with rfl | h
    · exact List.mem_cons_self
    · exact List.mem_cons_of_mem _ (List.mem_of_mem_filter h)

/-- The types of a file are within one line. -/
theorem oneLine_mimeOfExt (text ext : Bytes) {defaultType : Bytes} (h : OneLine defaultType) :
    OneLine ((MimeDb.create text defaultType).mimeOfExt ext) := by
  rw [mimeOfExt_create]
  cases hfound : (firstWith text ext).bind fun line => (tokens line).head? with
  | none => exact h
  | some mimeType =>
    obtain ⟨line, -, hhead⟩ := Option.bind_eq_some_iff.mp hfound
    have hblank := mem_splitBlanks (mem_tokens (List.mem_of_mem_head? hhead))
    constructor
    · exact fun hmem => absurd (hblank _ hmem) (by decide)
    · exact fun hmem => absurd (hblank _ hmem) (by decide)

/-! ## Responses with a length -/

/-- The body that `send_response` sends. -/
def HttpResponse.body (r : HttpResponse) : Bytes :=
  if r.statusCode < 400 then ((r.file.map File.content).getD []).take r.length else r.errorStr

/-- The headers of the response are lines, and one of them is the length of the body. -/
structure HttpResponse.Framed (r : HttpResponse) : Prop where
  reasonPhrase : OneLine r.reasonPhrase
  headers : ∀ h ∈ r.responseHeaders, IsHeader h
  length : r.responseHeaders.filter (fun h => h.1 = contentLength)
    = [(contentLength, ascii (toString r.body.length))]

/-- `make_header` writes a status line and a header block. -/
theorem isResponse_makeHeader {r : HttpResponse} (hreason : OneLine r.reasonPhrase)
    (hheaders : ∀ h ∈ r.responseHeaders, IsHeader h) (body : Bytes) :
    IsResponse (r.makeHeader ++ body)
      (ascii "HTTP/1.1" ++ space :: ascii (toString r.statusCode) ++ space :: r.reasonPhrase)
      r.responseHeaders body where
  bytes := rfl
  statusLine := by
    have hspace : space ≠ carriageReturn ∧ space ≠ newline := by decide
    have hversion : OneLine (ascii "HTTP/1.1") := by decide +kernel
    exact oneLine_append.mpr ⟨oneLine_append.mpr ⟨hversion, oneLine_cons.mpr
      ⟨hspace, oneLine_toString _⟩⟩, oneLine_cons.mpr ⟨hspace, hreason⟩⟩
  headers := hheaders

namespace HttpServer

variable {server : HttpServer} {world : World} {data path : Bytes}

/-- The headers that `send_response` adds. -/
def addedHeaders (world : World) : List (Bytes × Bytes) :=
  [(ascii "Date", world.now), (ascii "Connection", ascii "keep-alive"),
    (ascii "Server", ascii "trashttpd/1.0.0 (GNU+Linux)")]

/-- The headers that every response gets are header lines if the clock's text is one line. -/
theorem isHeader_added (hnow : OneLine world.now) : ∀ h ∈ addedHeaders world, IsHeader h := by
  intro h hh
  rcases List.mem_cons.mp hh with rfl | hh
  · have hname : OneLine (ascii "Date") ∧ colon ∉ ascii "Date" := by decide +kernel
    exact ⟨hname, hnow⟩
  · rcases List.mem_pair.mp hh with rfl | rfl
    · exact ⟨by decide +kernel, by decide +kernel⟩
    · exact ⟨by decide +kernel, by decide +kernel⟩

/-- **A response with the right headers** can be delimited. None of the headers that are added is a
length. -/
theorem selfDelimiting_sendResponse (hnow : OneLine world.now) {r : HttpResponse} (h : r.Framed) :
    SelfDelimiting (sendResponse world r) := by
  have hfilter : (addedHeaders world).filter (fun h => h.1 = contentLength) = [] := rfl
  refine ⟨_, r.responseHeaders ++ addedHeaders world, r.body, isResponse_makeHeader
    (r := { r with responseHeaders := r.responseHeaders ++ addedHeaders world }) h.reasonPhrase
    ?_ r.body, ?_⟩
  · intro x hx
    exact (List.mem_append.mp hx).elim (h.headers x) (isHeader_added hnow x)
  · rw [List.filter_append, hfilter, List.append_nil, h.length]

/-! ## The responses of `serve_get` -/

/-- A response without a body. -/
theorem framed_noContent {code : ℕ} (hreason : OneLine (ascii (statusReason code))) :
    (HttpResponse.ofStatus code noContent none 0).Framed where
  reasonPhrase := hreason
  headers h hh := by
    rw [List.mem_singleton.mp hh]
    exact ⟨by decide +kernel, by decide +kernel⟩
  length := by
    have hbody : (HttpResponse.ofStatus code noContent none 0).body = [] := by
      -- below 400 there is no file, from 400 on no error text
      unfold HttpResponse.body
      split <;> rfl
    rw [hbody]
    rfl

/-- The response with a file. Its body is the file, whose length is in the header. -/
theorem framed_file {mimeType modified : Bytes} (hmime : OneLine mimeType)
    (hmodified : OneLine modified) (file : File) :
    (HttpResponse.ofStatus 200 [(ascii "Content-Type", mimeType),
      (ascii "Content-Length", ascii (toString file.content.length)),
      (ascii "Last-Modified", modified)] (some file) file.content.length).Framed where
  reasonPhrase := by
    show OneLine (ascii "OK")
    decide +kernel
  -- The three header fields that `serve_get` adds; each is one line and no name holds a colon.
  headers h hh := by
    rcases List.mem_cons.mp hh with rfl | hh
    · have hname : OneLine (ascii "Content-Type") ∧
        colon ∉ ascii "Content-Type" := by decide +kernel
      exact ⟨hname, hmime⟩
    · rcases List.mem_pair.mp hh with rfl | rfl
      · have hname : OneLine contentLength ∧ colon ∉ contentLength := by decide +kernel
        exact ⟨hname, oneLine_toString _⟩
      · have hname : OneLine (ascii "Last-Modified") ∧ colon ∉ ascii "Last-Modified" := by
          decide +kernel
        exact ⟨hname, hmodified⟩
  length := by
    have hbody : (HttpResponse.ofStatus 200 [(ascii "Content-Type", mimeType),
        (ascii "Content-Length", ascii (toString file.content.length)),
        (ascii "Last-Modified", modified)] (some file) file.content.length).body = file.content :=
      List.take_length
    rw [hbody]
    rfl

/-- What is sent when the file cannot be opened. -/
theorem framed_overloaded : ({ HttpResponse.ofStatus 503
    [(ascii "Content-Length", ascii (toString (ascii "Server overloaded").length))] none 0 with
    errorStr := ascii "Server overloaded" } : HttpResponse).Framed where
  reasonPhrase := by
    show OneLine (ascii "Service Unavailable")
    decide +kernel
  headers h hh := by
    rw [List.mem_singleton.mp hh]
    have hname : OneLine contentLength ∧ colon ∉ contentLength := by decide +kernel
    exact ⟨hname, oneLine_toString _⟩
  length := rfl

/-- **The responses of `serve_get`** have the right headers. -/
theorem servePath_framed {text : Bytes}
    (hmime : server.mimeDb = .create text (ascii "application/octet-stream"))
    (htimes : world.Timed) {response : HttpResponse}
    (h : server.servePath world path = .ok response) : response.Framed := by
  -- one case for each response of the source: 400, 404 for no entry and for a directory, 200, 503
  unfold servePath at h
  split at h
  · cases h
    exact framed_noContent (by decide +kernel)
  · cases hentry : world.entry (cString (join server.basePath path)) with
    | error what =>
      simp only [hentry] at h
      cases h
    | ok entry =>
      cases entry with
      | none =>
        simp only [hentry] at h
        cases h
        exact framed_noContent (by decide +kernel)
      | some e =>
        cases e with
        | directory =>
          simp only [hentry] at h
          cases h
          exact framed_noContent (by decide +kernel)
        | file f =>
          simp only [hentry] at h
          split at h
          · cases h
            have hdefault : OneLine (ascii "application/octet-stream") := by decide +kernel
            have htype := oneLine_mimeOfExt text ((extension (join server.basePath path)).drop 1)
              hdefault
            rw [← hmime] at htype
            rw [f.size_content]
            exact framed_file htype (htimes.2 _ _ hentry) ⟨_, f.content⟩
          · cases h
            exact framed_overloaded

/-! ## The answer to a block of bytes -/

/-- What is behind the first occurrence of a byte has one occurrence less. -/
theorem count_of_findIdx? {s : Bytes} {b : UInt8} {i : ℕ}
    (h : (s.findIdx? fun x => x = b) = some i) : s.count b = (s.drop (i + 1)).count b + 1 := by
  induction s generalizing i with
  | nil => cases h
  | cons a s ih =>
    rw [List.findIdx?_cons] at h
    split at h
    · next ha =>
      cases h
      rw [of_decide_eq_true ha, List.count_cons_self]
      rfl
    · next ha =>
      obtain ⟨j, hj, rfl⟩ := Option.map_eq_some_iff.mp h
      have hne : a ≠ b := by simpa using ha
      rw [List.count_cons_of_ne hne, ih hj]
      rfl

/-- `find` finds nothing when the byte does not occur from there on. -/
theorem find_eq_none_iff {s : Bytes} {b : UInt8} {start : ℕ} :
    find s b start = none ↔ (s.drop start).count b = 0 := by
  unfold find
  rw [Option.map_eq_none_iff, List.findIdx?_eq_none_iff, List.count_eq_zero]
  constructor
  · intro h hmem
    have hb := h b hmem
    simp at hb
  · exact fun h x hx => decide_eq_false fun heq => h (heq ▸ hx)

/-- The parser finds a path between two spaces. -/
theorem exists_path_iff (parser : HttpParser) :
    (∃ path, parser.path = .ok path) ↔ 2 ≤ parser.requestLine.count space := by
  unfold HttpParser.path
  -- the first space, then the next one behind it
  cases hfirst : find parser.requestLine space 0 with
  | none =>
    rw [find_eq_none_iff, List.drop_zero] at hfirst
    rw [hfirst]
    refine iff_of_false (fun ⟨path, h⟩ => by cases h) (by decide)
  | some start =>
    obtain ⟨i, hi, hstart⟩ := Option.map_eq_some_iff.mp hfirst
    obtain rfl : i = start := by omega
    rw [List.drop_zero] at hi
    rw [count_of_findIdx? hi]
    cases hsecond : find parser.requestLine space (i + 1) with
    | none =>
      simp only [hsecond]
      rw [find_eq_none_iff] at hsecond
      rw [hsecond]
      exact iff_of_false (fun ⟨path, h⟩ => by cases h) (by decide)
    | some stop =>
      simp only [hsecond]
      have hpos : (parser.requestLine.drop (i + 1)).count space ≠ 0 := by
        intro hzero
        rw [← find_eq_none_iff, hsecond] at hzero
        cases hzero
      exact iff_of_true ⟨_, rfl⟩ (by omega)

/-- There is no length in the answer to a request without a path. -/
theorem not_selfDelimiting_refusal : ¬ SelfDelimiting refusal := by
  rintro ⟨statusLine, headers, body, hresponse, hlength⟩
  have hmem : (contentLength, ascii (toString body.length)) ∈ headers := by
    have hfilter := List.mem_singleton_self (contentLength, ascii (toString body.length))
    rw [← hlength] at hfilter
    exact List.mem_of_mem_filter hfilter
  obtain ⟨before, after, rfl⟩ := List.append_of_mem hmem
  -- a header of that name would be a part of the bytes, which are a constant
  have hinfix : contentLength <:+: refusal := by
    refine ⟨statusLine ++ crlf ++ before.flatMap (fun h => h.1 ++ ascii ": " ++ h.2 ++ crlf),
      ascii ": " ++ ascii (toString body.length) ++ crlf ++
        after.flatMap (fun h => h.1 ++ ascii ": " ++ h.2 ++ crlf) ++ crlf ++ body, ?_⟩
    rw [hresponse.bytes]
    simp only [List.flatMap_append, List.flatMap_cons, List.append_assoc]
  exact absurd hinfix (by decide +kernel)

/-- A call of the file system that fails is a `runtime_error`. -/
theorem servePath_error {e : HttpFault} (h : server.servePath world path = .error e) :
    ∃ what, e = .runtimeError what := by
  unfold servePath at h
  split at h
  · cases h
  · simp only at h
    split at h
    · cases h
      exact ⟨_, rfl⟩
    · cases h
    · cases h
    · split at h <;> cases h

/-- **Where answers end.** The answer to a block of bytes can be delimited exactly when its first
line has two spaces, that is, when the parser finds a path. -/
theorem selfDelimiting_iff {server : HttpServer} {world : World} {text : Bytes}
    (hmime : server.mimeDb = .create text (ascii "application/octet-stream"))
    (htimes : world.Timed) {data : Bytes} (hdata : data ≠ []) :
    (∃ sent, server.connAcceptor (fun _ => world) [data] = [sent] ∧ SelfDelimiting sent) ↔
      2 ≤ ((lines data).headD []).count space := by
  show _ ↔ 2 ≤ (HttpParser.parseHeaders data).requestLine.count space
  rw [← exists_path_iff]
  cases data with
  | nil => exact absurd rfl hdata
  | cons b data =>
    cases hpath : (HttpParser.parseHeaders (b :: data)).path with
    -- `httpexception`: the loop sends the constant refusal
    | error e =>
      obtain ⟨what, rfl⟩ := path_error hpath
      have hget : server.serveGet world (HttpParser.parseHeaders (b :: data))
          = .error (.httpException what) := by
        unfold serveGet
        rw [hpath]
        rfl
      have hanswer : server.connAcceptor (fun _ => world) [b :: data] = [refusal] := by
        simp only [connAcceptor, hget]
        rfl
      apply iff_of_false
      · rintro ⟨sent, hsent, hdelimiting⟩
        rw [hanswer, List.cons.injEq] at hsent
        exact not_selfDelimiting_refusal (hsent.1 ▸ hdelimiting)
      · rintro ⟨path, h⟩
        cases h
    | ok path =>
      refine iff_of_true ?_ ⟨path, rfl⟩
      have hget : server.serveGet world (HttpParser.parseHeaders (b :: data))
          = server.servePath world path := by
        unfold serveGet
        rw [hpath]
        rfl
      cases hserve : server.servePath world path with
      | ok response =>
        refine ⟨sendResponse world response, by simp only [connAcceptor, hget, hserve], ?_⟩
        exact selfDelimiting_sendResponse htimes.1 (servePath_framed hmime htimes hserve)
      | error e =>
        -- `runtime_error`: the loop sends a 500 with length zero
        obtain ⟨what, rfl⟩ := servePath_error hserve
        refine ⟨(HttpResponse.ofStatus 500 noContent none 0).makeHeader,
          by simp only [connAcceptor, hget, hserve], ?_⟩
        have hframed : (HttpResponse.ofStatus 500 noContent none 0).Framed :=
          framed_noContent (by decide +kernel)
        have hresponse := isResponse_makeHeader hframed.reasonPhrase hframed.headers []
        rw [List.append_nil] at hresponse
        exact ⟨_, noContent, [], hresponse, rfl⟩

/-- The server, with an empty MIME file. -/
def emptyMimeServer : HttpServer :=
  ⟨ascii "/var/www", .create [] (ascii "application/octet-stream"), by decide +kernel⟩

theorem timed_onlyFile (path : Bytes) : (onlyFile path).Timed := by
  have hempty : OneLine [] := by decide
  refine ⟨hempty, fun p f h => ?_⟩
  have hentry : (if p = path then some (Entry.file (.ofContent [])) else none)
      = some (.file f) := Except.ok.inj h
  split at hentry
  · cases hentry
    exact hempty
  · cases hentry

/-- A GET is answered by a response that says where it ends, as its first line has two spaces. -/
theorem selfDelimiting_iff_getA :
    (∃ sent, emptyMimeServer.connAcceptor (fun _ => onlyFile (ascii "/a")) [getA.bytes] = [sent] ∧
      SelfDelimiting sent) ↔ 2 ≤ ((lines getA.bytes).headD []).count space :=
  selfDelimiting_iff rfl (timed_onlyFile _) (by decide +kernel)

/-- The answer to a line without spaces has no length. -/
theorem refusal_without_length :
    ¬ ∀ (server : HttpServer) (world : World) (text data : Bytes),
      server.mimeDb = .create text (ascii "application/octet-stream") → world.Timed → data ≠ [] →
      ∃ sent, server.connAcceptor (fun _ => world) [data] = [sent] ∧ SelfDelimiting sent := by
  intro h
  obtain ⟨sent, hsent, hdelimiting⟩ := h emptyMimeServer (onlyFile []) [] (ascii "x") rfl
    (timed_onlyFile _) (by decide +kernel)
  have hanswer : emptyMimeServer.connAcceptor (fun _ => onlyFile []) [ascii "x"] = [refusal] := rfl
  rw [hanswer, List.cons.injEq] at hsent
  exact not_selfDelimiting_refusal (hsent.1 ▸ hdelimiting)

end HttpServer

end Cs457.Http
