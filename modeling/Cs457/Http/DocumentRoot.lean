import Cs457.Http.Server
import Cs457.Lib.PathStack

/-!
# HTTP server — the document root

`serve_get` joins the base path and the path of the request and opens the result. Nothing looks
at the names in between, and ".." goes up from the base path as from anywhere.

* **`resolved_append`** — a path behind the base path continues from where that leads.
* **`served_below_iff`** — when the file that is served lies below the base path.
-/

namespace Cs457.Http

open PathStack

/-- A name of a path as a move. -/
def moveOf (name : Bytes) : Move Bytes :=
  if name = [] ∨ name = [dot] then .stay else if name = [dot, dot] then .up else .into name

def moves (path : Bytes) : List (Move Bytes) := (components path).map moveOf

/-- Where the system starts with a path, `cwd` being the names of the working directory. Two slashes
in front are to it as one. -/
def start (cwd : List Bytes) (path : Bytes) : List Bytes :=
  if path.head? = some slash then [] else cwd

/-- The names from the root to what a path stands for in a file system without symbolic links. -/
def resolved (cwd : List Bytes) (path : Bytes) : List Bytes := resolve (start cwd path) (moves path)

/-- The path lies in the directory. -/
def Below (cwd : List Bytes) (directory path : Bytes) : Prop :=
  resolved cwd directory <+: resolved cwd path

/-- **The path stays in the directory**, or comes back through the names that it has climbed. An
empty directory is the working directory, and what is appended to it starts from the root. -/
def Returns (cwd : List Bytes) (directory path : Bytes) : Prop :=
  let names := resolved cwd directory
  let climb := (relative (moves (cString path))).1
  names.drop (if directory = [] then 0 else names.length - climb)
    <+: (relative (moves (cString path))).2

/-! ## Joined paths -/

/-- A path has a component, which may be empty. -/
theorem components_ne_nil (path : Bytes) : components path ≠ [] := by
  cases path with
  | nil => exact List.cons_ne_nil _ _
  | cons b rest =>
    unfold components
    split
    · exact List.cons_ne_nil _ _
    · split <;> exact List.cons_ne_nil _ _

/-- A separator separates the components. -/
theorem components_append_slash (path rest : Bytes) :
    components (path ++ slash :: rest) = components path ++ components rest := by
  induction path with
  | nil => simp [components]
  | cons b path ih =>
    rw [List.cons_append, components, components, ih]
    split
    · rfl
    · -- a character is joined to the first name behind it
      cases hpath : components path with
      | nil => exact absurd hpath (components_ne_nil path)
      | cons name others => rfl

theorem moves_slash (rest : Bytes) : moves (slash :: rest) = .stay :: moves rest := rfl

/-- A path behind another continues from where that leads. -/
theorem resolved_append {directory path : Bytes} (cwd : List Bytes) (hdirectory : directory ≠ [])
    (hpath : path.head? = some slash) :
    resolved cwd (directory ++ path) = resolve (resolved cwd directory) (moves path) := by
  cases path with
  | nil => cases hpath
  | cons b rest =>
    obtain rfl : b = slash := Option.some.inj hpath
    have hstart : start cwd (directory ++ slash :: rest) = start cwd directory := by
      unfold start
      rw [List.head?_append_of_ne_nil _ hdirectory]
    -- the slash between the two paths starts a new name
    have hmoves : moves (directory ++ slash :: rest) = moves directory ++ moves rest := by
      unfold moves
      rw [components_append_slash, List.map_append]
    rw [resolved, hstart, hmoves, resolve_append, moves_slash]
    rfl

/-- An absolute path is appended as it is. -/
theorem join_absolute {path : Bytes} (hpath : isAbsolute path = true) (directory : Bytes) :
    join directory path = directory ++ path :=
  if_pos (Or.inr (Or.inr (Or.inr (head_of_isAbsolute hpath))))

/-- What an operating system call sees of an absolute path is absolute. -/
theorem head_cString {path : Bytes} (hpath : path.head? = some slash) :
    (cString path).head? = some slash := by
  cases path with
  | nil => cases hpath
  | cons b rest =>
    obtain rfl : b = slash := Option.some.inj hpath
    rfl

/-- **The joined path** lies below the directory exactly when the appended one returns to it. -/
theorem below_append_iff {directory path : Bytes} (cwd : List Bytes)
    (hpath : isAbsolute path = true) :
    Below cwd directory (directory ++ cString path) ↔ Returns cwd directory path := by
  have hhead := head_cString (head_of_isAbsolute hpath)
  by_cases hdirectory : directory = []
  · -- with no directory in front the path starts from the root
    have hresolved : resolved cwd (directory ++ cString path)
      = (relative (moves (cString path))).2 := by
      rw [hdirectory, List.nil_append, resolved, start, if_pos hhead, resolve_eq, place,
        List.take_nil, List.nil_append]
    simp only [Below, Returns, hresolved, if_pos hdirectory, List.drop_zero]
  · simp only [Below, Returns, resolved_append cwd hdirectory hhead, if_neg hdirectory]
    exact prefix_resolve_iff _ _

/-! ## A file system without symbolic links -/

/-- What a path leads to in a tree: all that is passed on the way is a directory. -/
def walk (tree : List Bytes → Option Entry) : List Bytes → List (Move Bytes) → Option Entry
  | names, [] => tree names
  | names, m :: path =>
    if tree names = some .directory then walk tree (step names m) path else none

def World.ofTree (tree : List Bytes → Option Entry) (cwd : List Bytes) (now : Bytes) : World where
  entry path := .ok (walk tree (start cwd path) (moves path))
  now := now

/-! ## The file that is served -/

namespace HttpServer

variable {server : HttpServer} {world : World}

/-- A file is opened with the joined path. -/
theorem file_of_servePath {path : Bytes} {response : HttpResponse}
    (h : server.servePath world path = .ok response) (hstatus : response.statusCode = 200) :
    isAbsolute path = true ∧
      ∃ content, response.file = some ⟨server.basePath ++ cString path, content⟩ := by
  unfold servePath at h
  -- the only response with status 200 is the one with an open file
  split at h
  · cases h
    cases hstatus
  · next hrelative =>
    have habsolute : isAbsolute path = true := by simpa using hrelative
    refine ⟨habsolute, ?_⟩
    simp only [join_absolute habsolute, cString_append server.zero_notMem_basePath] at h
    split at h
    · cases h
    · cases h
      cases hstatus
    · cases h
      cases hstatus
    · split at h
      · cases h
        exact ⟨_, rfl⟩
      · cases h
        cases hstatus

/-- **Below the document root**: the file of a response with status 200 lies below the base path
exactly when the path of the request returns to it. -/
theorem served_below_iff (server : HttpServer) (world : World) (cwd : List Bytes) (data : Bytes)
    {path : Bytes} {response : HttpResponse}
    (hpath : (HttpParser.parseHeaders data).path = .ok path)
    (hserved : server.serveGet world (HttpParser.parseHeaders data) = .ok response)
    (hstatus : response.statusCode = 200) :
    (∃ file, response.file = some file ∧ Below cwd server.basePath file.path) ↔
      Returns cwd server.basePath path := by
  unfold serveGet at hserved
  rw [hpath] at hserved
  obtain ⟨habsolute, content, hfile⟩ := file_of_servePath hserved hstatus
  rw [← below_append_iff cwd habsolute]
  constructor
  · rintro ⟨file, hsome, hbelow⟩
    rw [hfile, Option.some.injEq] at hsome
    rw [← hsome] at hbelow
    exact hbelow
  · exact fun hbelow => ⟨_, hfile, hbelow⟩

/-- A server for "/srv/www". -/
def srvWwwServer : HttpServer := ⟨ascii "/srv/www", ⟨∅, ascii "text/plain"⟩, by decide +kernel⟩

/-- The files "/srv/www/a" and "/srv/secret". -/
def srvTree (names : List Bytes) : Option Entry :=
  if names = [] ∨ names = [ascii "srv"] ∨ names = [ascii "srv", ascii "www"] then some .directory
  else if names = [ascii "srv", ascii "www", ascii "a"] ∨ names = [ascii "srv", ascii "secret"]
    then some (.file (.ofContent (ascii "x")))
  else none

/-- The response with one of them. -/
def fileResponse (path : Bytes) : HttpResponse :=
  .ofStatus 200 [(ascii "Content-Type", ascii "text/plain"), (ascii "Content-Length", ascii "1"),
    (ascii "Last-Modified", [])] (some ⟨path, ascii "x"⟩) 1

theorem served_below_iff_inside :
    (∃ file, (fileResponse (ascii "/srv/www/a")).file = some file ∧
      Below [] srvWwwServer.basePath file.path) ↔
      Returns [] srvWwwServer.basePath (ascii "/a") :=
  served_below_iff srvWwwServer (.ofTree srvTree [] []) [] (ascii "GET /a HTTP/1.1")
    (by decide +kernel) (by rfl) (by rfl)

/-- A path that climbs out of the base path is served. -/
theorem served_outside :
    ¬ ∀ (server : HttpServer) (tree : List Bytes → Option Entry) (cwd : List Bytes)
      (now data : Bytes) (response : HttpResponse),
      server.serveGet (.ofTree tree cwd now) (HttpParser.parseHeaders data) = .ok response →
      response.statusCode = 200 →
      ∃ file, response.file = some file ∧ Below cwd server.basePath file.path := by
  intro h
  obtain ⟨file, hfile, hbelow⟩ := h srvWwwServer srvTree [] [] (ascii "GET /../secret HTTP/1.1")
    (fileResponse (ascii "/srv/www/../secret")) (by rfl) (by rfl)
  have hopened : ⟨ascii "/srv/www/../secret", ascii "x"⟩ = file := Option.some.inj hfile
  rw [← hopened] at hbelow
  have houtside : ¬ [ascii "srv", ascii "www"]
    <+: [ascii "srv", ascii "secret"] := by decide +kernel
  exact houtside hbelow

end HttpServer

end Cs457.Http
