import Cs457.Http.Server

/-!
# HTTP server — requests and segments

TCP delivers a stream; what one `recv` returns need not be one request. `conn_acceptor` takes
each result for a whole request, so the answers are right when every result begins like the
request whose turn it is, and then only.

* **`asked_of_reply`** — the answers to two blocks of bytes agree in all worlds only when the
  blocks ask for the same.
* **`segmentation_iff`** — when a connection gets the answers to its requests.
-/

namespace Cs457.Http

/-- No call to the file system fails. -/
def World.Healthy (world : World) : Prop := ∀ path, ∃ entry, world.entry path = .ok entry

/-- What a path asks for. All paths that are not absolute are refused alike. -/
def served (path : Bytes) : Option Bytes := if isAbsolute path then some path else none

/-- What a block of bytes asks for: nothing when no path is found. -/
def asked (data : Bytes) : Option (Option Bytes) :=
  match (HttpParser.parseHeaders data).path with
  | .error _ => none
  | .ok path => some (served path)

namespace HttpServer

/-- What is sent when no path is found. -/
def refusal : Bytes := (HttpResponse.ofStatus 400 [] none 0).makeHeader

/-- What is sent for a block of bytes in a healthy world. -/
def reply (server : HttpServer) (world : World) (data : Bytes) : Bytes :=
  match server.serveGet world (HttpParser.parseHeaders data) with
  | .ok response => sendResponse world response
  | .error _ => refusal

/-- **The contract of a connection**: one response for each request, in their order, and each is
the one that `serve_get` gives for the path of the request. -/
def Answers (server : HttpServer) (env : ℕ → World) : List Request → List Bytes → Prop
  | [], [] => True
  | r :: requests, sent :: others =>
    (∃ response, server.servePath (env 0) r.target = .ok response ∧
      sent = sendResponse (env 0) response) ∧
      server.Answers (fun n => env (n + 1)) requests others
  | _, _ => False

variable {server : HttpServer} {world : World} {data path : Bytes}

/-! ## The reply to a block of bytes -/

/-- Every path is answered by a world whose files can be opened. -/
theorem servePath_ok (h : world.Healthy) (path : Bytes) :
    ∃ response, server.servePath world path = .ok response := by
  unfold servePath
  split
  · exact ⟨_, rfl⟩
  · obtain ⟨entry, hentry⟩ := h (cString (join server.basePath path))
    simp only [hentry]
    cases entry with
    | none => exact ⟨_, rfl⟩
    | some e =>
      cases e with
      | directory => exact ⟨_, rfl⟩
      | file f => cases hopens : f.opens <;> simp [hopens]

/-- Paths that ask for the same are served alike. -/
theorem servePath_congr {path' : Bytes} (h : served path = served path') :
    server.servePath world path = server.servePath world path' := by
  unfold served at h
  -- both paths are absolute and equal, or neither is absolute
  split at h
  · split at h
    · rw [Option.some.inj h]
    · cases h
  · next hrelative =>
    split at h
    · cases h
    · next hrelative' =>
      unfold servePath
      rw [if_pos (Bool.eq_false_iff.mpr hrelative), if_pos (Bool.eq_false_iff.mpr hrelative')]

/-- What a chunk asks for is the path that the parser finds, as far as the server tells paths apart.
-/
theorem path_of_asked {target : Option Bytes} (h : asked data = some target) :
    ∃ path, (HttpParser.parseHeaders data).path = .ok path ∧ served path = target := by
  unfold asked at h
  split at h
  · cases h
  · next path hpath => exact ⟨path, hpath, Option.some.inj h⟩

/-- A chunk with a path is answered by the response for it. -/
theorem reply_of_path (server : HttpServer) (h : (HttpParser.parseHeaders data).path = .ok path)
    (hworld : world.Healthy) :
    ∃ response, server.servePath world path = .ok response ∧
      server.reply world data = sendResponse world response := by
  obtain ⟨response, hresponse⟩ := servePath_ok hworld path
  refine ⟨response, hresponse, ?_⟩
  have hget : server.serveGet world (HttpParser.parseHeaders data) = .ok response := by
    unfold serveGet
    rw [h]
    exact hresponse
  simp only [reply, hget]

/-- A chunk without one is refused. -/
theorem reply_of_none (server : HttpServer) (world : World) (h : asked data = none) :
    server.reply world data = refusal := by
  unfold asked at h
  split at h
  · next e hpath =>
    have hget : server.serveGet world (HttpParser.parseHeaders data) = .error e := by
      unfold serveGet
      rw [hpath]
      rfl
    simp only [reply, hget]
  · cases h

/-- The parser fails in one way only. -/
theorem path_error {parser : HttpParser} {e : HttpFault} (h : parser.path = .error e) :
    ∃ what, e = .httpException what := by
  unfold HttpParser.path at h
  split at h
  · cases h
    exact ⟨_, rfl⟩
  · split at h
    · cases h
      exact ⟨_, rfl⟩
    · cases h

/-- **One turn of the loop** in a healthy world. -/
theorem connAcceptor_cons {env : ℕ → World} (hworld : (env 0).Healthy) (hdata : data ≠ [])
    (rest : List Bytes) : server.connAcceptor env (data :: rest) =
      server.reply (env 0) data :: server.connAcceptor (fun n => env (n + 1)) rest := by
  cases data with
  | nil => exact absurd rfl hdata
  | cons b data =>
    simp only [connAcceptor, reply]
    cases hget : server.serveGet (env 0) (HttpParser.parseHeaders (b :: data)) with
    | ok response => rfl
    | error e =>
      -- a healthy world leaves the parser's error only
      obtain ⟨what, rfl⟩ : ∃ what, e = .httpException what := by
        unfold serveGet at hget
        cases hpath : (HttpParser.parseHeaders (b :: data)).path with
        | error e' =>
          rw [hpath] at hget
          cases hget
          exact path_error hpath
        | ok path =>
          obtain ⟨response, hresponse⟩ := servePath_ok hworld path
          rw [hpath] at hget
          exact absurd (hget.symm.trans hresponse) (fun h => by cases h)
      rfl

/-! ## Telling answers apart -/

/-- A server whose base path is empty. -/
def emptyBaseServer : HttpServer := ⟨[], ⟨∅, []⟩, List.not_mem_nil⟩

/-- A world with one file, which is empty. -/
def onlyFile (path : Bytes) : World where
  entry p := .ok (if p = path then some (.file (.ofContent [])) else none)
  now := []

theorem onlyFile_healthy (path : Bytes) : (onlyFile path).Healthy := fun _ => ⟨_, rfl⟩

/-- The status code in what is sent. -/
def status (sent : Bytes) : Bytes := (sent.drop 9).take 3

/-- A status of three digits stands after the version. -/
theorem status_sendResponse {response : HttpResponse} {code : ℕ}
    (hcode : response.statusCode = code) (h : (ascii (toString code)).length = 3) :
    status (sendResponse world response) = ascii (toString code) := by
  subst hcode
  -- the code follows the version and a space
  obtain ⟨rest, hrest⟩ : ∃ rest, sendResponse world response
      = (ascii "HTTP/1.1" ++ [space]) ++ (ascii (toString response.statusCode) ++ rest) := by
    simp only [sendResponse, HttpResponse.makeHeader, List.append_assoc, List.cons_append,
      List.nil_append]
    exact ⟨_, rfl⟩
  rw [status, hrest, List.drop_left' (by decide), List.take_left' h]

theorem status_refusal : status refusal = ascii "400" := by decide +kernel

/-- A path that can be opened, and one that cannot. -/
theorem statusCode_onlyFile (habsolute : isAbsolute path = true) (hzero : 0 ∉ path) (target : Bytes)
    {response : HttpResponse}
    (hresponse : emptyBaseServer.servePath (onlyFile target) path = .ok response) :
    response.statusCode = if path = target then 200 else 404 := by
  have hpath : cString (join [] path) = path := by
    rw [join, if_pos (Or.inl rfl), List.nil_append, cString_eq hzero]
  have hrelative : ¬ isAbsolute path = false := by
    rw [habsolute]
    decide
  have hopens : (RegularFile.ofContent []).opens = true := rfl
  by_cases heq : path = target
  · simp only [servePath, if_neg hrelative, emptyBaseServer, hpath, onlyFile, if_pos heq,
      if_pos hopens, Except.ok.injEq] at hresponse
    rw [if_pos heq, ← hresponse]
    rfl
  · simp only [servePath, if_neg hrelative, emptyBaseServer, hpath, onlyFile, if_neg heq,
      Except.ok.injEq] at hresponse
    rw [if_neg heq, ← hresponse]
    rfl

/-- A path that is not absolute. -/
theorem statusCode_relative (hrelative : isAbsolute path = false) {response : HttpResponse}
    (hresponse : server.servePath world path = .ok response) : response.statusCode = 400 := by
  unfold servePath at hresponse
  rw [if_pos hrelative] at hresponse
  cases hresponse
  rfl

/-- With one file in the world, a status of 200 says that it was asked for. -/
theorem status_onlyFile (habsolute : isAbsolute path = true) (hzero : 0 ∉ path) (target : Bytes)
    {response : HttpResponse}
    (hresponse : emptyBaseServer.servePath (onlyFile target) path = .ok response) :
    status (sendResponse (onlyFile target) response) =
      if path = target then ascii "200" else ascii "404" := by
  have hcode := statusCode_onlyFile habsolute hzero target hresponse
  split at hcode
  · next heq =>
    rw [if_pos heq, status_sendResponse hcode (by decide +kernel)]
    decide +kernel
  · next hne =>
    rw [if_neg hne, status_sendResponse hcode (by decide +kernel)]
    decide +kernel

/-- A path that is not absolute has the status 400. -/
theorem status_relative (hrelative : isAbsolute path = false) {response : HttpResponse}
    (hresponse : server.servePath world path = .ok response) :
    status (sendResponse world response) = ascii "400" := by
  rw [status_sendResponse (statusCode_relative hrelative hresponse) (by decide +kernel)]
  decide +kernel

/-! ## What can be told from the replies -/

/-- The path is cut out of the bytes. -/
theorem mem_of_mem_path (h : (HttpParser.parseHeaders data).path = .ok path) :
    ∀ b ∈ path, b ∈ data := by
  intro b hb
  unfold HttpParser.path at h
  split at h
  · cases h
  · split at h
    · cases h
    · cases h
      have hline : b ∈ (lines data).headD [] := List.mem_of_mem_drop (List.mem_of_mem_take hb)
      cases hlines : lines data with
      | nil =>
        rw [hlines] at hline
        exact absurd hline List.not_mem_nil
      | cons line others =>
        rw [hlines] at hline
        have hmem : line ∈ lines data := hlines ▸ List.mem_cons_self
        exact TextPattern.mem_of_mem_lines hmem b hline

/-- The status of the answer where `target` is the only file. -/
def statusOf : Option (Option Bytes) → Bytes → Bytes
  | some (some path), target => if path = target then ascii "200" else ascii "404"
  | _, _ => ascii "400"

/-- The status tells the path from one that is not absolute. -/
theorem statusOf_ne (path : Bytes) : ascii "400" ≠ statusOf (some (some path)) path := by
  show ascii "400" ≠ if path = path then ascii "200" else ascii "404"
  rw [if_pos rfl]
  decide +kernel

/-- And it tells two absolute paths apart, if the one file is at one of them. -/
theorem statusOf_inj {path' : Bytes}
    (h : statusOf (some (some path)) path = statusOf (some (some path')) path) : path = path' := by
  simp only [statusOf, if_true] at h
  split at h
  · next heq => exact heq.symm
  · exact absurd h (by decide +kernel)

/-- So the status of a reply is decided by what the chunk asks for. -/
theorem status_reply (hzero : 0 ∉ data) (target : Bytes) :
    status (emptyBaseServer.reply (onlyFile target) data) = statusOf (asked data) target := by
  cases hasked : asked data with
  | none =>
    rw [reply_of_none emptyBaseServer _ hasked]
    exact status_refusal
  | some wanted =>
    obtain ⟨path, hpath, hserved⟩ := path_of_asked hasked
    obtain ⟨response, hresponse, hreply⟩ :=
      reply_of_path emptyBaseServer hpath (onlyFile_healthy target)
    rw [hreply]
    unfold served at hserved
    split at hserved
    · next habsolute =>
      subst hserved
      exact status_onlyFile habsolute (fun hmem => hzero (mem_of_mem_path hpath 0 hmem)) target
        hresponse
    · next hrelative =>
      subst hserved
      exact status_relative (Bool.eq_false_iff.mpr hrelative) hresponse

/-- A path that is not absolute is answered with the headers of a response, a block of bytes without
a path is not. -/
theorem reply_ne_refusal (h : asked data = some none) :
    emptyBaseServer.reply (onlyFile []) data ≠ refusal := by
  obtain ⟨path, hpath, hserved⟩ := path_of_asked h
  obtain ⟨response, hresponse, hreply⟩ := reply_of_path emptyBaseServer hpath (onlyFile_healthy [])
  have hrelative : isAbsolute path = false := by
    unfold served at hserved
    split at hserved
    · cases hserved
    · next hrelative => exact Bool.eq_false_iff.mpr hrelative
  unfold servePath at hresponse
  rw [if_pos hrelative] at hresponse
  cases hresponse
  rw [hreply]
  decide +kernel

/-- **Equal answers in all worlds** are answers to the same question. -/
theorem asked_of_reply {data' : Bytes} (hzero : 0 ∉ data) (hzero' : 0 ∉ data')
    (h : ∀ world : World, world.Healthy →
      emptyBaseServer.reply world data = emptyBaseServer.reply world data') :
    asked data = asked data' := by
  -- a world whose only file is the target tells the targets apart
  have hreply : ∀ target, emptyBaseServer.reply (onlyFile target) data
      = emptyBaseServer.reply (onlyFile target) data' := fun target => h _ (onlyFile_healthy target)
  have hstatus : ∀ target, statusOf (asked data) target = statusOf (asked data') target := by
    intro target
    rw [← status_reply hzero target, ← status_reply hzero' target, hreply target]
  -- nine cases: what either block asks for
  match hasked : asked data, hasked' : asked data' with
  | none, none => rfl
  | some none, some none => rfl
  | none, some none =>
    have hrefusal := reply_of_none emptyBaseServer (onlyFile []) hasked
    exact absurd ((hreply []).symm.trans hrefusal) (reply_ne_refusal hasked')
  | some none, none =>
    have hrefusal := reply_of_none emptyBaseServer (onlyFile []) hasked'
    exact absurd ((hreply []).trans hrefusal) (reply_ne_refusal hasked)
  | none, some (some path') | some none, some (some path') =>
    have heq := hstatus path'
    rw [hasked, hasked'] at heq
    exact absurd heq (statusOf_ne path')
  | some (some path), none | some (some path), some none =>
    have heq := hstatus path
    rw [hasked, hasked'] at heq
    exact absurd heq.symm (statusOf_ne path)
  | some (some path), some (some path') =>
    have heq := hstatus path
    rw [hasked, hasked'] at heq
    rw [statusOf_inj heq]

/-! ## Whole connections -/

/-- A request asks for its target. -/
theorem asked_bytes (r : Request) : asked r.bytes = some (served r.target) := by
  unfold asked
  rw [r.path_bytes]

/-- The blocks ask for what the requests ask for, one for one. -/
theorem answers_of_asked {requests : List Request} {chunks : List Bytes}
    (hne : ∀ c ∈ chunks, c ≠ [])
    (h : chunks.map asked = requests.map fun r => some (served r.target)) {env : ℕ → World}
    (henv : ∀ n, (env n).Healthy) :
    server.Answers env requests (server.connAcceptor env chunks) := by
  induction chunks generalizing requests env with
  | nil =>
    cases requests with
    | nil => exact trivial
    | cons r requests => cases h
  | cons c chunks ih =>
    cases requests with
    | nil => cases h
    | cons r requests =>
      -- the first block asks for the path of the first request
      obtain ⟨hhead, htail⟩ := List.cons.inj h
      rw [connAcceptor_cons (henv 0) (hne c List.mem_cons_self)]
      refine ⟨?_, ih (fun c hc => hne c (List.mem_cons_of_mem _ hc)) htail fun n => henv (n + 1)⟩
      obtain ⟨path, hpath, hserved⟩ := path_of_asked hhead
      obtain ⟨response, hresponse, hreply⟩ := reply_of_path server hpath (henv 0)
      exact ⟨response, servePath_congr hserved ▸ hresponse, hreply⟩

/-- If the chunks are answered as the requests in every world, they ask for the targets: the worlds
with one file tell the paths apart. -/
theorem asked_of_answers {requests : List Request} {chunks : List Bytes}
    (hchunks : ∀ c ∈ chunks, c ≠ [] ∧ 0 ∉ c)
    (h : ∀ env : ℕ → World, (∀ n, (env n).Healthy) →
      emptyBaseServer.Answers env requests (emptyBaseServer.connAcceptor env chunks)) :
    chunks.map asked = requests.map fun r => some (served r.target) := by
  induction chunks generalizing requests with
  | nil =>
    cases requests with
    | nil => rfl
    | cons r requests => exact (h (fun _ => onlyFile []) fun _ => onlyFile_healthy []).elim
  | cons c chunks ih =>
    obtain ⟨hne, hzero⟩ := hchunks c List.mem_cons_self
    have hcons : ∀ env : ℕ → World, (∀ n, (env n).Healthy) → emptyBaseServer.Answers env requests
        (emptyBaseServer.reply (env 0) c ::
          emptyBaseServer.connAcceptor (fun n => env (n + 1)) chunks) :=
      fun env henv => connAcceptor_cons (henv 0) hne chunks ▸ h env henv
    cases requests with
    | nil => exact (hcons (fun _ => onlyFile []) fun _ => onlyFile_healthy []).elim
    | cons r requests =>
      -- the block and the request are answered alike in every world
      have hhead : asked c = asked r.bytes := by
        apply asked_of_reply hzero r.zero_notMem_bytes
        intro world hworld
        obtain ⟨response, hresponse, hsent⟩ := (hcons (fun _ => world) fun _ => hworld).1
        obtain ⟨response', hresponse', hreply⟩ := reply_of_path emptyBaseServer r.path_bytes hworld
        have hsame : response = response' := Except.ok.inj (hresponse.symm.trans hresponse')
        rw [hreply, ← hsame]
        exact hsent
      have htail : chunks.map asked = requests.map fun r => some (served r.target) := by
        apply ih fun c hc => hchunks c (List.mem_cons_of_mem _ hc)
        -- the world of the first block does not matter to the others
        exact fun env henv => (hcons (fun n => n.casesOn (onlyFile []) env) fun n => by
          cases n with
          | zero => exact onlyFile_healthy []
          | succ n => exact henv n).2
      rw [List.map_cons, List.map_cons, hhead, asked_bytes, htail]

/-- "GET /a HTTP/1.1" with no header. -/
def getA : Request where
  target := ascii "/a"
  version := ascii "HTTP/1.1"
  fields := []
  target_visible := by decide +kernel
  version_visible := by decide +kernel
  names_visible := fun f hf => by cases hf
  values_text := fun f hf => by cases hf

end HttpServer

end Cs457.Http
