import Cs457.Chord.Node
import Cs457.Lib.BigEndian

/-!
# Chord — the file server

`FileStoreHandler`: the files of a server are kept in its working directory, each under the
id of its name and owner, and only those that the server owns are read or written. An
optional field of a thrift struct that is not set reads as its default. A record is assumed
to be read back as it was written.

* **`writeFile_ok`** — what a request that is accepted leaves behind.
* **`writeFile_separate_iff`** — a write is seen under another name and owner exactly when the
  two joined strings are the same.
-/

namespace Cs457.Chord

structure RFileMetadata where
  filename : Option Str := none
  version : Option Int32 := none
  owner : Option Str := none
  contentHash : Option Str := none
  deriving DecidableEq, Repr

structure RFile where
  metadata : Option RFileMetadata := none
  content : Option Str := none
  deriving DecidableEq, Repr

structure FileStoreHandler where
  node : LocalNode
  files : Str → Option RFile := fun _ => none

/-- The name of a file in the directory. -/
def fileId (digest : Digest) (filename owner : Str) : Str :=
  sha256 digest (filename ++ str ":" ++ owner)

def notOwner : Fault := .systemException "Node is not owner of file"

namespace FileStoreHandler

def readFile (digest : Digest) (h : FileStoreHandler) (filename owner : Str) :
    Except Fault RFile := do
  let id := fileId digest filename owner
  if !(← h.node.isSuccessor id) then .error notOwner
  else
    match h.files id with
    | none => .error (.systemException "File does not exist")
    | some file => return file

def writeFile (digest : Digest) (h : FileStoreHandler) (rFile : RFile) :
    Except Fault FileStoreHandler := do
  let given := rFile.metadata.getD {}
  let filename := given.filename.getD []
  let owner := given.owner.getD []
  let id := fileId digest filename owner
  if !(← h.node.isSuccessor id) then .error notOwner
  else
    let hash := sha256 digest (rFile.content.getD [])
    let version ← match h.files id with
      | none => pure 0
      | some _ => do
        let old ← h.readFile digest filename owner
        pure ((old.metadata.getD {}).version.getD 0 + 1)
    let file : RFile := { rFile with
      metadata := some { given with contentHash := some hash, version := some version } }
    return { h with files := Function.update h.files id (some file) }

/-! ## What the two requests do -/

/-- The names in a record. -/
def names (rFile : RFile) : Str × Str :=
  ((rFile.metadata.getD {}).filename.getD [], (rFile.metadata.getD {}).owner.getD [])

/-- The version of a write over `old`. -/
def nextVersion (old : Option RFile) : Int32 :=
  match old with
  | none => 0
  | some file => (file.metadata.getD {}).version.getD 0 + 1

/-- The record that a write leaves behind. -/
def stamped (digest : Digest) (rFile : RFile) (version : Int32) : RFile :=
  { rFile with
    metadata := some { rFile.metadata.getD {} with
      contentHash := some (sha256 digest (rFile.content.getD []))
      version := some version } }

variable {digest : Digest} {h : FileStoreHandler} {filename owner : Str} {rFile : RFile}

/-- The owner of an id answers with the file it has, or throws. -/
theorem readFile_of_owner (hsucc : h.node.isSuccessor (fileId digest filename owner) = .ok true) :
    h.readFile digest filename owner = match h.files (fileId digest filename owner) with
      | none => .error (.systemException "File does not exist")
      | some file => .ok file := by
  simp only [readFile, hsucc, bind, Except.bind, Bool.not_true]
  rfl

/-- Any other server refuses. -/
theorem readFile_of_not_owner
    (hsucc : h.node.isSuccessor (fileId digest filename owner) = .ok false) :
    h.readFile digest filename owner = .error notOwner := by
  simp only [readFile, hsucc, bind, Except.bind, Bool.not_false, if_true]

/-- A server that cannot tell throws the fault of `is_successor`. -/
theorem readFile_of_error {f : Fault}
    (hsucc : h.node.isSuccessor (fileId digest filename owner) = .error f) :
    h.readFile digest filename owner = .error f := by
  simp only [readFile, hsucc, bind, Except.bind]

/-- **A write at the owner succeeds.** The read of the old version does not fail, as the file
is there. -/
theorem writeFile_of_owner
    (hsucc : h.node.isSuccessor (fileId digest (names rFile).1 (names rFile).2) = .ok true) :
    h.writeFile digest rFile = .ok { h with
      files := Function.update h.files (fileId digest (names rFile).1 (names rFile).2)
        (some (stamped digest rFile
          (nextVersion (h.files (fileId digest (names rFile).1 (names rFile).2))))) } := by
  have hread := readFile_of_owner hsucc
  simp only [names] at hsucc hread
  simp only [writeFile, names, hsucc, bind, Except.bind, Bool.not_true, Bool.false_eq_true,
    if_false]
  cases hfile : h.files (fileId digest ((rFile.metadata.getD {}).filename.getD [])
    ((rFile.metadata.getD {}).owner.getD [])) with
  | none => rfl
  | some file =>
    rw [hfile] at hread
    simp only [hread]
    rfl

/-- A server that is not the owner writes nothing. -/
theorem writeFile_of_not_owner
    (hsucc : h.node.isSuccessor (fileId digest (names rFile).1 (names rFile).2) = .ok false) :
    h.writeFile digest rFile = .error notOwner := by
  simp only [names] at hsucc
  simp only [writeFile, hsucc, bind, Except.bind, Bool.not_false, if_true]

theorem writeFile_of_error {f : Fault}
    (hsucc : h.node.isSuccessor (fileId digest (names rFile).1 (names rFile).2) = .error f) :
    h.writeFile digest rFile = .error f := by
  simp only [names] at hsucc
  simp only [writeFile, hsucc, bind, Except.bind]

/-- Only the owner writes. -/
theorem isSuccessor_of_writeFile {h' : FileStoreHandler}
    (hwrite : h.writeFile digest rFile = .ok h') :
    h.node.isSuccessor (fileId digest (names rFile).1 (names rFile).2) = .ok true := by
  cases hsucc : h.node.isSuccessor (fileId digest (names rFile).1 (names rFile).2) with
  | error f =>
    rw [writeFile_of_error hsucc] at hwrite
    cases hwrite
  | ok b =>
    cases b with
    | true => rfl
    | false =>
      rw [writeFile_of_not_owner hsucc] at hwrite
      cases hwrite

/-- **What an accepted write does.** The server owns the file, and only this file changes. -/
theorem writeFile_ok {h' : FileStoreHandler} (hwrite : h.writeFile digest rFile = .ok h') :
    h' = { h with
      files := Function.update h.files (fileId digest (names rFile).1 (names rFile).2)
        (some (stamped digest rFile
          (nextVersion (h.files (fileId digest (names rFile).1 (names rFile).2))))) } := by
  rw [writeFile_of_owner (isSuccessor_of_writeFile hwrite)] at hwrite
  exact (Except.ok.inj hwrite).symm

/-! ## Files of different owners -/

/-- A write never leaves the file as it was: the version goes up. -/
theorem stamped_ne (old : Option RFile) : old ≠ some (stamped digest rFile (nextVersion old)) := by
  intro heq
  have hversion : nextVersion old = nextVersion old + 1 := by
    conv_lhs => rw [heq]
    rfl
  have hdiff := congrArg (· - nextVersion old) hversion
  simp [Int32.add_comm] at hdiff

/-- The string whose digest names a file. -/
def joined (filename owner : Str) : Str := filename ++ str ":" ++ owner

/-- **When a write is seen under another name.** The digests of the two strings differ unless
the strings are the same. -/
theorem writeFile_separate_iff {h' : FileStoreHandler}
    (hdigest : sha256 digest (joined filename owner)
        = sha256 digest (joined (names rFile).1 (names rFile).2) →
      joined filename owner = joined (names rFile).1 (names rFile).2)
    (hwrite : h.writeFile digest rFile = .ok h') :
    h'.readFile digest filename owner = h.readFile digest filename owner ↔
      joined filename owner ≠ joined (names rFile).1 (names rFile).2 := by
  have hsucc := isSuccessor_of_writeFile hwrite
  rw [writeFile_ok hwrite]
  constructor
  · intro hsame heq
    have hid : fileId digest filename owner = fileId digest (names rFile).1 (names rFile).2 :=
      congrArg (sha256 digest) heq
    rw [← hid] at hsucc hsame
    have hafter := readFile_of_owner (h := { h with
      files := Function.update h.files (fileId digest filename owner)
        (some (stamped digest rFile (nextVersion (h.files (fileId digest filename owner))))) })
          hsucc
    rw [hafter, readFile_of_owner hsucc] at hsame
    simp only [Function.update_self] at hsame
    cases hfile : h.files (fileId digest filename owner) with
    | none =>
      rw [hfile] at hsame
      cases hsame
    | some file =>
      rw [hfile] at hsame
      -- the version has changed
      exact stamped_ne (some file) (congrArg some (Except.ok.inj hsame).symm)
  · intro hne
    have hid : fileId digest filename owner ≠ fileId digest (names rFile).1 (names rFile).2 :=
      fun heq => hne (hdigest heq)
    simp only [readFile, Function.update_of_ne hid]

/-- The digests of three strings; those of other messages do not matter. -/
def noteDigest : Digest := fun message =>
  ⟨(BigEndian.toBytes 32 (
    if message = str "notes:alice" then
      0x8306de366aee6d3245e404ad71112cf00f9f5c415f08474567843066c3008a5b
    else if message = str "notes:bob" then
      0x5a5d8602b0d577ce104e23fc4ccb2ac6508cd078f3d893cd305828970353af0a
    else if message = str "a:b:c" then
      0xb0ee04f880c4ff4261479e2e7822b7410aee4c7159f4185ad5b0d88a312b495e
    else 0)).toArray, by simp⟩

/-- A server that is alone in its ring. -/
def aloneHandler : FileStoreHandler where
  node := { LocalNode.create noteDigest (str "127.0.0.1") 9090 with
    predecessor := some (LocalNode.create noteDigest (str "127.0.0.1") 9090).toNodeID }

def note (filename owner content : String) : RFile where
  metadata := some { filename := some (str filename), owner := some (str owner) }
  content := some (str content)

/-- A write of `bob` is not seen by `alice`. -/
theorem writeFile_separate_iff_notes : ∃ h',
    aloneHandler.writeFile noteDigest (note "notes" "bob" "x") = .ok h' ∧
    (h'.readFile noteDigest (str "notes") (str "alice")
        = aloneHandler.readFile noteDigest (str "notes") (str "alice") ↔
      joined (str "notes") (str "alice") ≠ joined (str "notes") (str "bob")) := by
  refine ⟨_, writeFile_of_owner ?_, writeFile_separate_iff ?_ (writeFile_of_owner ?_)⟩
  · decide +kernel
  · decide +kernel
  · decide +kernel

/-- The file `a:b` of the user `c` is also the file `a` of the user `b:c`. -/
theorem writeFile_of_other_owner_seen : ∃ h',
    aloneHandler.writeFile noteDigest (note "a:b" "c" "x") = .ok h' ∧
    (str "a", str "b:c") ≠ names (note "a:b" "c" "x") ∧
    h'.readFile noteDigest (str "a") (str "b:c")
      ≠ aloneHandler.readFile noteDigest (str "a") (str "b:c") := by
  refine ⟨_, writeFile_of_owner ?_, ?_, ?_⟩
  · decide +kernel
  · decide +kernel
  · decide +kernel

end FileStoreHandler

end Cs457.Chord
