import Cs457.Http.Request

/-!
# HTTP server — responses

`serve_get` answers a request from the files below the base path, `send_response` turns the
answer into bytes, and `conn_acceptor` answers the results of `recv` one after the other. The file
system and the clock are those of the time at which a request is handled.

* **`HttpServer.serveGet`** — the response to a request.
* **`HttpServer.connAcceptor`** — what a connection is sent, one element for each `recv`.
-/

namespace Cs457.Http

def slash : UInt8 := 47
def dot : UInt8 := 46

/-- `c_str()`: what the system is given of a string. -/
def cString (s : Bytes) : Bytes := s.takeWhile fun b => b ≠ 0

theorem cString_append {s : Bytes} (h : 0 ∉ s) (t : Bytes) : cString (s ++ t) = s ++ cString t :=
  List.takeWhile_append_of_pos fun _ hb => decide_eq_true fun heq => h (heq ▸ hb)

theorem cString_eq {s : Bytes} (h : 0 ∉ s) : cString s = s := by
  have happend := cString_append h []
  rwa [List.append_nil, show cString [] = [] from rfl, List.append_nil] at happend

/-! ## Paths -/

/-- The names between the slashes. -/
def components : Bytes → List Bytes
  | [] => [[]]
  | b :: rest =>
    if b = slash then [] :: components rest
    else match components rest with
      | [] => [[b]]
      | name :: others => (b :: name) :: others

/-- A path of two slashes and at most one name is a root name, as "//host" is. -/
def isRootName (path : Bytes) : Bool :=
  path.take 2 = [slash, slash] ∧ (path.drop 2).all (fun b => b ≠ slash) = true

/-- `is_absolute()`: there is a root directory, which a root name alone does not have. -/
def isAbsolute (path : Bytes) : Bool := path.head? = some slash ∧ isRootName path = false

theorem head_of_isAbsolute {path : Bytes} (h : isAbsolute path = true) :
    path.head? = some slash :=
  (of_decide_eq_true h).1

/-- `operator/`: a separator is put in where neither side has one. -/
def join (lhs rhs : Bytes) : Bytes :=
  -- the right side may be absolute: it is appended all the same
  if lhs = [] ∨ rhs = [] ∨ lhs.getLast? = some slash ∨ rhs.head? = some slash then lhs ++ rhs
  else lhs ++ slash :: rhs

/-- `extension()`, from the last dot of the last name. A root name and the names "." and ".." have
none. -/
def extension (path : Bytes) : Bytes :=
  let name := (components path).getLastD []
  if isRootName path = true ∨ name = [dot] ∨ name = [dot, dot] then []
  else match name.reverse.findIdx? fun b => b = dot with
    -- a name with its only dot at the front is all extension, as in `std::experimental::filesystem`
    | some i => name.drop (name.length - i - 1)
    | none => []

/-! ## The surroundings of the server -/

/-- A file: what `sendfile` delivers of it, what `file_size` says, its time of modification as a
header has it, and whether it can be opened. -/
structure RegularFile where
  content : Bytes
  fileSize : ℕ
  modified : Bytes
  opens : Bool
  /-- The file is not written while it is served, and its size is known. -/
  size_content : fileSize = content.length
  deriving DecidableEq, Repr

/-- A file that nobody has touched. -/
def RegularFile.ofContent (content : Bytes) : RegularFile :=
  ⟨content, content.length, [], true, rfl⟩

/-- What is at a path. -/
inductive Entry where
  | directory
  | file (f : RegularFile)
  deriving DecidableEq, Repr

/-- The file system and the clock: `entry` fails with the `filesystem_error` of a call, `now` is
`http_time()`. -/
structure World where
  entry : Bytes → Except Bytes (Option Entry)
  now : Bytes

structure MimeDb where
  extToType : UnorderedMap Bytes Bytes := ∅
  default : Bytes

def MimeDb.mimeOfExt (db : MimeDb) (extension : Bytes) : Bytes :=
  (db.extToType.lookup extension).getD db.default

/-! ## Responses -/

/-- The reason phrases of the status codes. -/
def statusReason : ℕ → String
  | 100 => "Continue"
  | 101 => "Switching Protocols"
  | 200 => "OK"
  | 201 => "Created"
  | 202 => "Accepted"
  | 203 => "Non-Authoritative Information"
  | 204 => "No Content"
  | 205 => "Reset Content"
  | 206 => "Partial Content"
  | 300 => "Multiple Choices"
  | 301 => "Moved Permanently"
  | 302 => "Found"
  | 303 => "See Other"
  | 304 => "Not Modified"
  | 305 => "Use Proxy"
  | 307 => "Temporary Redirect"
  | 400 => "Bad Request"
  | 401 => "Unauthorized"
  | 402 => "Payment Required"
  | 403 => "Forbidden"
  | 404 => "Not Found"
  | 405 => "Method Not Allowed"
  | 406 => "Not Acceptable"
  | 407 => "Proxy Authentication Required"
  | 408 => "Request Time-out"
  | 409 => "Conflict"
  | 410 => "Gone"
  | 411 => "Length Required"
  | 412 => "Precondition Failed"
  | 413 => "Request Entity Too Large"
  | 414 => "Request-URI Too Large"
  | 415 => "Unsupported Media Type"
  | 416 => "Requested range not satisfiable"
  | 417 => "Expectation Failed"
  | 500 => "Internal Server Error"
  | 501 => "Not Implemented"
  | 502 => "Bad Gateway"
  | 503 => "Service Unavailable"
  | 504 => "Gateway Time-out"
  | 505 => "HTTP Version not supported"
  | _ => ""

/-- An open file: the path that it was opened with, and its content. -/
structure File where
  path : Bytes
  content : Bytes
  deriving DecidableEq, Repr

structure HttpResponse where
  statusCode : ℕ
  reasonPhrase : Bytes
  responseHeaders : List (Bytes × Bytes)
  file : Option File := none
  length : ℕ := 0
  errorStr : Bytes := []

namespace HttpResponse

/-- The constructor without a reason phrase. -/
def ofStatus (statusCode : ℕ) (responseHeaders : List (Bytes × Bytes)) (file : Option File)
    (length : ℕ) : HttpResponse where
  statusCode := statusCode
  reasonPhrase := ascii (statusReason statusCode)
  responseHeaders := responseHeaders
  file := file
  length := length

def makeHeader (r : HttpResponse) : Bytes :=
  ascii "HTTP/1.1" ++ space :: ascii (toString r.statusCode) ++ space :: r.reasonPhrase ++ crlf ++
    r.responseHeaders.flatMap (fun h => h.1 ++ ascii ": " ++ h.2 ++ crlf) ++ crlf

end HttpResponse

/-- `Content-Length` of nothing. -/
def noContent : List (Bytes × Bytes) := [(ascii "Content-Length", ascii "0")]

structure HttpServer where
  basePath : Bytes
  mimeDb : MimeDb
  /-- There is no NUL in a path. -/
  zero_notMem_basePath : 0 ∉ basePath

namespace HttpServer

/-- `serve_get`, once the path is known. -/
def servePath (server : HttpServer) (world : World) (path : Bytes) :
    Except HttpFault HttpResponse :=
  if isAbsolute path = false then .ok (.ofStatus 400 noContent none 0)
  else
    let fullPath := join server.basePath path
    -- `exists` and the calls after it see one state of the file system
    match world.entry (cString fullPath) with
    | .error what => .error (.runtimeError what)
    | .ok none => .ok (.ofStatus 404 noContent none 0)
    | .ok (some .directory) => .ok (.ofStatus 404 noContent none 0)
    | .ok (some (.file f)) =>
      let headers := [(ascii "Content-Type", server.mimeDb.mimeOfExt ((extension fullPath).drop 1)),
        (ascii "Content-Length", ascii (toString f.fileSize)),
        (ascii "Last-Modified", f.modified)]
      -- the descriptor of a file that cannot be opened is negative
      if f.opens then .ok (.ofStatus 200 headers (some ⟨cString fullPath, f.content⟩) f.fileSize)
      else
        let errorStr := ascii "Server overloaded"
        .ok { HttpResponse.ofStatus 503
          [(ascii "Content-Length", ascii (toString errorStr.length))] none 0 with
          errorStr := errorStr }

def serveGet (server : HttpServer) (world : World) (parser : HttpParser) :
    Except HttpFault HttpResponse := do
  let path ← parser.path
  server.servePath world path

/-- `send_response`: the header, then the file or what is said of the error. No call to the socket
fails. -/
def sendResponse (world : World) (response : HttpResponse) : Bytes :=
  let response := { response with
    responseHeaders := response.responseHeaders ++
      [(ascii "Date", world.now), (ascii "Connection", ascii "keep-alive"),
        (ascii "Server", ascii "trashttpd/1.0.0 (GNU+Linux)")] }
  response.makeHeader ++
    if response.statusCode < 400
      then ((response.file.map File.content).getD []).take response.length
      else response.errorStr

/-- `conn_acceptor` on the results of `recv`, `env n` being the world at the `n`-th. There is no
result after the last: `recv` returns zero bytes or fails. -/
def connAcceptor (server : HttpServer) (env : ℕ → World) : List Bytes → List Bytes
  | [] => []
  -- no bytes mean that the connection has been closed
  | [] :: _ => []
  | s :: rest =>
    match server.serveGet (env 0) (HttpParser.parseHeaders s) with
    | .ok response =>
      sendResponse (env 0) response :: server.connAcceptor (fun n => env (n + 1)) rest
    | .error (.httpException what) =>
      { HttpResponse.ofStatus 400 [] none 0 with errorStr := what }.makeHeader ::
        server.connAcceptor (fun n => env (n + 1)) rest
    -- any other error ends the connection
    | .error (.runtimeError _) => [(HttpResponse.ofStatus 500 noContent none 0).makeHeader]

end HttpServer

end Cs457.Http
