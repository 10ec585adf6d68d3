import Cs457.Chord.FileStore

/-!
# Chord — the files of one server

The two requests of `FileStoreHandler` once more, statement by statement on the working
directory: an exception leaves the directory as it is at that point. What is in a file is left
open; only a new file has to read as the record that is written to it.

* **`FileFormat`** — what the transport and the protocol make of a file.
* **`Holds.readFile`**, **`Holds.writeFile`** — both requests do what those of `FileStoreHandler`
  do, and a request that throws changes nothing.
* **`Holds.perform`** — one call.
-/

namespace Cs457.Chord

/-- What `RFile::write` leaves in a file and `RFile::read` finds there. -/
structure FileFormat (F : Type) where
  /-- A transport appends to the file that it opens. -/
  write : Option F → RFile → F
  read : F → Option RFile
  /-- The records that a file can keep. -/
  Fits : RFile → Prop
  read_write {file : RFile} : Fits file → read (write none file) = some file

/-- The files of the working directory. -/
abbrev Directory (F : Type) := Str → Option F

/-- The body of a method. -/
abbrev DirectoryBody (F : Type) := ExceptT Fault (StateM (Directory F))

namespace DirectoryBody

variable {F : Type}

/-- What the caller gets, and the directory that is left behind. -/
def result {α : Type} (body : DirectoryBody F α) (dir : Directory F) :
    Except Fault α × Directory F :=
  body.run.run dir

def fileExists (id : Str) : DirectoryBody F Bool := do
  return ((← get) id).isSome

def remove (id : Str) : DirectoryBody F Unit :=
  modify fun dir => Function.update dir id none

variable (format : FileFormat F)

/-- `file.write(protocol)` on a transport for the file. -/
def write (id : Str) (file : RFile) : DirectoryBody F Unit :=
  modify fun dir => Function.update dir id (some (format.write (dir id) file))

/-- `_return.read(protocol)`; what is no record is an exception. -/
def read (id : Str) : DirectoryBody F RFile := do
  match ((← get) id).bind format.read with
  | none => throw .transport
  | some file => return file

def readFile (digest : Digest) (node : LocalNode) (filename owner : Str) :
    DirectoryBody F RFile := do
  let id := fileId digest filename owner
  if !(← ofExcept (node.isSuccessor id)) then
    throw notOwner
  if !(← fileExists id) then
    throw (.systemException "File does not exist")
  read format id

def writeFile (digest : Digest) (node : LocalNode) (rFile : RFile) : DirectoryBody F Unit := do
  let given := rFile.metadata.getD {}
  let filename := given.filename.getD []
  let owner := given.owner.getD []
  let id := fileId digest filename owner
  if !(← ofExcept (node.isSuccessor id)) then
    throw notOwner
  let hash := sha256 digest (rFile.content.getD [])
  let mut version : Int32 := 0
  if (← fileExists id) then
    let old ← readFile format digest node filename owner
    version := (old.metadata.getD {}).version.getD 0 + 1
    remove id
  write format id { rFile with
    metadata := some { given with contentHash := some hash, version := some version } }

/-! ## The statements, one by one -/

section Result

variable {α β : Type} (dir : Directory F)

/-- A body runs to its end or to the first fault; what it has written by then stays. -/
@[simp] theorem result_bind (x : DirectoryBody F α) (f : α → DirectoryBody F β) :
    (x >>= f).result dir = match x.result dir with
      | (.ok a, dir') => (f a).result dir'
      | (.error e, dir') => (.error e, dir') := by
  simp only [result, ExceptT.run_bind, StateT.run_bind]
  rcases hx : x.run.run dir with ⟨a | e, dir'⟩
  · rfl
  · rfl

@[simp] theorem result_pure (a : α) :
    (pure a : DirectoryBody F α).result dir = (.ok a, dir) := rfl

@[simp] theorem result_throw (e : Fault) :
    (throw e : DirectoryBody F α).result dir = (.error e, dir) := rfl

@[simp] theorem result_ofExcept (x : Except Fault α) :
    (ofExcept x : DirectoryBody F α).result dir = (x, dir) := by
  cases x with
  | ok a => rfl
  | error e => rfl

@[simp] theorem result_fileExists (id : Str) :
    (fileExists id).result dir = (.ok (dir id).isSome, dir) := rfl

@[simp] theorem result_remove (id : Str) :
    (remove id).result dir = (.ok (), Function.update dir id none) := rfl

@[simp] theorem result_write (id : Str) (file : RFile) : (write format id file).result dir
    = (.ok (), Function.update dir id (some (format.write (dir id) file))) := rfl

/-- A file that holds a record is read as that record. -/
theorem result_read {id : Str} {file : RFile} (h : (dir id).bind format.read = some file) :
    (read format id).result dir = (.ok file, dir) := by
  show (match (dir id).bind format.read with
    | none => throw .transport
    | some file => pure file : DirectoryBody F RFile).result dir = _
  rw [h]
  rfl

end Result

end DirectoryBody

/-! ## Calls -/

inductive Call where
  | readFile (filename owner : Str)
  | writeFile (rFile : RFile)
  deriving DecidableEq, Repr

namespace Call

def isWrite : Call → Bool
  | readFile _ _ => false
  | writeFile _ => true

/-- The id of the file that a call is about. -/
def id (digest : Digest) : Call → Str
  | readFile filename owner => fileId digest filename owner
  | writeFile rFile => fileId digest (FileStoreHandler.names rFile).1
      (FileStoreHandler.names rFile).2

/-- The record of a write. -/
def record? : Call → Option RFile
  | readFile _ _ => none
  | writeFile rFile => some rFile

/-- The record that a call may leave behind fits, whichever version it gets. -/
def Fits {F : Type} (format : FileFormat F) (digest : Digest) (call : Call) : Prop :=
  ∀ rFile ∈ call.record?, ∀ version, format.Fits (FileStoreHandler.stamped digest rFile version)

end Call

/-- A call of either method. -/
def DirectoryBody.perform {F : Type} (format : FileFormat F) (digest : Digest) (node : LocalNode) :
    Call → DirectoryBody F (Option RFile)
  | .readFile filename owner => do return some (← readFile format digest node filename owner)
  | .writeFile rFile => do
    writeFile format digest node rFile
    return none

/-- A call on the records. -/
def onRecords (digest : Digest) (node : LocalNode) (call : Call) (files : Str → Option RFile) :
    Except Fault (Option RFile) × (Str → Option RFile) :=
  match call with
  | .readFile filename owner =>
    ((FileStoreHandler.readFile digest ⟨node, files⟩ filename owner).map some, files)
  | .writeFile rFile =>
    match FileStoreHandler.writeFile digest ⟨node, files⟩ rFile with
    | .ok h' => (.ok none, h'.files)
    | .error f => (.error f, files)

/-! ## The records of a directory -/

variable {F : Type} {format : FileFormat F} {digest : Digest} {node : LocalNode}

/-- Each file reads as its record, whoever has written it. -/
def Holds (format : FileFormat F) (dir : Directory F) (files : Str → Option RFile) : Prop :=
  ∀ id, (dir id).map format.read = (files id).map some

namespace Holds

variable {dir : Directory F} {files : Str → Option RFile} (h : Holds format dir files)

include h

/-- A file exists exactly when there is a record of it. -/
theorem isSome_eq (id : Str) : (dir id).isSome = (files id).isSome := by
  have hid := congrArg Option.isSome (h id)
  rwa [Option.isSome_map, Option.isSome_map] at hid

/-- What a file reads as is its record. -/
theorem bind_read (id : Str) : (dir id).bind format.read = files id := by
  have hid := h id
  cases hdir : dir id with
  | none =>
    rw [hdir] at hid
    exact (Option.map_eq_none_iff.mp hid.symm).symm
  | some content =>
    rw [hdir] at hid
    obtain ⟨file, hfile, heq⟩ := Option.map_eq_some_iff.mp hid.symm
    rw [Option.bind_some, hfile, heq]

/-- A file that is written anew reads as its record. -/
theorem update {file : RFile} (hfits : format.Fits file) (id : Str) :
    Holds format (Function.update dir id (some (format.write none file)))
      (Function.update files id (some file)) := by
  intro other
  by_cases heq : other = id
  · subst heq
    rw [Function.update_self, Function.update_self, Option.map_some, Option.map_some,
      format.read_write hfits]
  · rw [Function.update_of_ne heq, Function.update_of_ne heq]
    exact h other

/-- **A read** returns what the handler returns, and never changes a file. -/
theorem readFile (filename owner : Str) :
    (DirectoryBody.readFile format digest node filename owner).result dir
      = (FileStoreHandler.readFile digest ⟨node, files⟩ filename owner, dir) := by
  unfold DirectoryBody.readFile
  cases hsucc : node.isSuccessor (fileId digest filename owner) with
  | error f => simp [hsucc, FileStoreHandler.readFile_of_error (h := ⟨node, files⟩) hsucc]
  | ok b =>
    cases b with
    | false => simp [hsucc, FileStoreHandler.readFile_of_not_owner (h := ⟨node, files⟩) hsucc]
    | true =>
      rw [FileStoreHandler.readFile_of_owner (h := ⟨node, files⟩) hsucc]
      have hexists := h.isSome_eq (fileId digest filename owner)
      have hread := h.bind_read (fileId digest filename owner)
      cases hfile : files (fileId digest filename owner) with
      | none =>
        rw [hfile] at hexists
        simp [hsucc, hexists, hfile]
      | some file =>
        rw [hfile] at hexists hread
        simp [hsucc, hexists, DirectoryBody.result_read format dir hread, hfile]

/-- **A write** puts the record of the handler into a new file, or throws and changes nothing. -/
theorem writeFile (rFile : RFile) :
    (DirectoryBody.writeFile format digest node rFile).result dir
      = match FileStoreHandler.writeFile digest ⟨node, files⟩ rFile with
        | .ok _ => (.ok (), Function.update dir ((Call.writeFile rFile).id digest)
            (some (format.write none (FileStoreHandler.stamped digest rFile
              (FileStoreHandler.nextVersion (files ((Call.writeFile rFile).id digest)))))))
        | .error f => (.error f, dir) := by
  have hread : (DirectoryBody.readFile format digest node (FileStoreHandler.names rFile).1
      (FileStoreHandler.names rFile).2).result dir = _ := h.readFile _ _
  have hexists := h.isSome_eq (fileId digest (FileStoreHandler.names rFile).1
    (FileStoreHandler.names rFile).2)
  cases hsucc : node.isSuccessor (fileId digest (FileStoreHandler.names rFile).1
      (FileStoreHandler.names rFile).2) with
  | error f =>
    rw [FileStoreHandler.writeFile_of_error (h := ⟨node, files⟩) hsucc]
    simp only [FileStoreHandler.names] at hsucc
    simp [DirectoryBody.writeFile, hsucc]
  | ok b =>
    cases b with
    | false =>
      rw [FileStoreHandler.writeFile_of_not_owner (h := ⟨node, files⟩) hsucc]
      simp only [FileStoreHandler.names] at hsucc
      simp [DirectoryBody.writeFile, hsucc]
    | true =>
      rw [FileStoreHandler.writeFile_of_owner (h := ⟨node, files⟩) hsucc]
      rw [FileStoreHandler.readFile_of_owner (h := ⟨node, files⟩) hsucc] at hread
      simp only [Call.id]
      -- the old file is removed first, so that the new one has one record only
      cases hfile : files (fileId digest (FileStoreHandler.names rFile).1
          (FileStoreHandler.names rFile).2) with
      | none =>
        rw [hfile, Option.isSome_none] at hexists
        have hdir := Option.isNone_iff_eq_none.mp (Option.isSome_eq_false_iff.mp hexists)
        simp only [FileStoreHandler.names] at hsucc hdir ⊢
        simp [DirectoryBody.writeFile, hsucc, hdir, FileStoreHandler.stamped,
          FileStoreHandler.nextVersion]
      | some file =>
        rw [hfile, Option.isSome_some] at hexists
        simp only [hfile] at hread
        simp only [FileStoreHandler.names] at hsucc hexists hread ⊢
        simp [DirectoryBody.writeFile, hsucc, hexists, hread, FileStoreHandler.stamped,
          FileStoreHandler.nextVersion]

/-- **One call** on the files and on the records. -/
theorem perform {call : Call} (hfits : call.Fits format digest) :
    ((DirectoryBody.perform format digest node call).result dir).1
        = (onRecords digest node call files).1 ∧
      Holds format ((DirectoryBody.perform format digest node call).result dir).2
        (onRecords digest node call files).2 := by
  cases call with
  | readFile filename owner =>
    simp only [DirectoryBody.perform, DirectoryBody.result_bind, h.readFile, onRecords]
    cases FileStoreHandler.readFile digest ⟨node, files⟩ filename owner with
    | ok file => exact ⟨rfl, h⟩
    | error f => exact ⟨rfl, h⟩
  | writeFile rFile =>
    simp only [DirectoryBody.perform, DirectoryBody.result_bind, h.writeFile, onRecords]
    cases hwrite : FileStoreHandler.writeFile digest ⟨node, files⟩ rFile with
    | ok h' =>
      rw [FileStoreHandler.writeFile_ok hwrite]
      exact ⟨rfl, h.update (hfits rFile rfl _) _⟩
    | error f => exact ⟨rfl, h⟩

end Holds

end Cs457.Chord
