import Cs457.Chord.Directory

/-!
# Chord — the files of one server over its history

Each file with its records: a transport appends its record to the file that it opens and a read
takes the first record, so a write removes the old file first.

* **`Kept.serve`** — the files are the successful writes, after one more call.
* **`file_history`** — what is read after any sequence of calls.
-/

namespace Cs457.Chord

/-- The records of each file of the working directory. -/
abbrev WorkingDirectory := Directory (List RFile)

/-- The body of a method over these. -/
abbrev Body := DirectoryBody (List RFile)

/-- A record is read back as it was written. -/
def records : FileFormat (List RFile) where
  write old file := old.getD [] ++ [file]
  read := List.head?
  Fits _ := True
  read_write _ := rfl

namespace Body

abbrev readFile (digest : Digest) (node : LocalNode) (filename owner : Str) : Body RFile :=
  DirectoryBody.readFile records digest node filename owner

abbrev writeFile (digest : Digest) (node : LocalNode) (rFile : RFile) : Body Unit :=
  DirectoryBody.writeFile records digest node rFile

end Body

/-! ## Histories -/

def Call.body (digest : Digest) (node : LocalNode) : Call → Body (Option RFile) :=
  DirectoryBody.perform records digest node

/-- The directory of a server, and the writes that have succeeded so far. -/
structure Served where
  dir : WorkingDirectory := fun _ => none
  written : List RFile := []

namespace Served

/-- The server after one more call. -/
def serve (digest : Digest) (node : LocalNode) (s : Served) (call : Call) : Served :=
  match (call.body digest node).result s.dir with
  | (.ok _, dir) => { dir := dir, written := s.written ++ call.record?.toList }
  | (.error _, dir) => { s with dir := dir }

/-- A server that starts in an empty directory. -/
def history (digest : Digest) (node : LocalNode) (calls : List Call) : Served :=
  calls.foldl (serve digest node) {}

/-- The successful writes to one id. -/
def writtenTo (digest : Digest) (s : Served) (id : Str) : List RFile :=
  s.written.filter fun rFile => (Call.writeFile rFile).id digest = id

/-- The files that the successful writes leave behind: for each id the last one, its version
the number of writes before it. -/
def files (digest : Digest) (s : Served) : Str → Option RFile := fun id =>
  (s.writtenTo digest id).getLast?.map fun last =>
    FileStoreHandler.stamped digest last (Int32.ofNat ((s.writtenTo digest id).length - 1))

/-- **The invariant of a history.** -/
def Kept (digest : Digest) (s : Served) : Prop := Holds records s.dir (s.files digest)

variable {digest : Digest} {node : LocalNode} {s : Served}

/-- A further record is the last of those written to its id. -/
theorem writtenTo_append (rFile : RFile) (dir : WorkingDirectory) (id : Str) :
    writtenTo digest { dir := dir, written := s.written ++ [rFile] } id
      = s.writtenTo digest id ++ if (Call.writeFile rFile).id digest = id then [rFile] else [] := by
  simp only [writtenTo, List.filter_append, List.filter_cons, List.filter_nil, decide_eq_true_eq]

/-- The version of a write is the number of writes before it. -/
theorem nextVersion_files (id : Str) : FileStoreHandler.nextVersion (s.files digest id)
    = Int32.ofNat (s.writtenTo digest id).length := by
  rcases hlast : (s.writtenTo digest id).getLast? with _ | last
  · rw [List.getLast?_eq_none_iff] at hlast
    simp only [files, hlast, List.getLast?_nil, Option.map_none, List.length_nil]
    rfl
  · have hpos : 0 < (s.writtenTo digest id).length := by
      apply List.length_pos_iff.mpr
      intro hnil
      rw [hnil] at hlast
      cases hlast
    simp only [files, hlast, Option.map_some, FileStoreHandler.nextVersion,
      FileStoreHandler.stamped, Option.getD_some]
    rw [show (1 : Int32) = Int32.ofNat 1 from rfl, ← Int32.ofNat_add, Nat.sub_add_cancel hpos]

/-- **One more write** to an id replaces its file. -/
theorem files_append (rFile : RFile) (dir : WorkingDirectory) :
    files digest { dir := dir, written := s.written ++ [rFile] }
      = Function.update (s.files digest) ((Call.writeFile rFile).id digest)
          (some (FileStoreHandler.stamped digest rFile (FileStoreHandler.nextVersion
            (s.files digest ((Call.writeFile rFile).id digest))))) := by
  funext id
  by_cases heq : (Call.writeFile rFile).id digest = id
  · subst heq
    rw [Function.update_self, nextVersion_files, files, writtenTo_append, if_pos rfl]
    simp only [List.getLast?_concat, Option.map_some, List.length_append, List.length_singleton,
      Nat.add_sub_cancel]
  · rw [Function.update_of_ne (Ne.symm heq), files, writtenTo_append, if_neg heq, List.append_nil,
      files]

/-- **One more call.** Only a write that succeeds changes a file. -/
theorem Kept.serve (hs : s.Kept digest) (call : Call) : (s.serve digest node call).Kept digest := by
  cases call with
  | readFile filename owner =>
    unfold Served.serve
    simp only [Call.body, DirectoryBody.perform, DirectoryBody.result_bind, Holds.readFile hs]
    cases FileStoreHandler.readFile digest ⟨node, s.files digest⟩ filename owner with
    | ok file => simpa [Kept, Call.record?, files, writtenTo] using hs
    | error f => exact hs
  | writeFile rFile =>
    unfold Served.serve
    simp only [Call.body, DirectoryBody.perform, DirectoryBody.result_bind, Holds.writeFile hs]
    cases FileStoreHandler.writeFile digest ⟨node, s.files digest⟩ rFile with
    | ok h' =>
      show Holds records _ (files digest { dir := _, written := s.written ++ [rFile] })
      rw [files_append]
      exact Holds.update hs trivial _
    | error f => exact hs

/-- A call that cannot be answered here throws, and every file is as before. -/
theorem Kept.body_of_not_owner (hs : s.Kept digest) {call : Call}
    (hcall : node.isSuccessor (call.id digest) ≠ .ok true) :
    ∃ f, (call.body digest node).result s.dir = (.error f, s.dir) := by
  cases hsucc : node.isSuccessor (call.id digest) with
  | ok b =>
    obtain rfl : b = false := by
      apply Bool.eq_false_of_not_eq_true
      intro htrue
      exact hcall (hsucc.trans (congrArg _ htrue))
    refine ⟨notOwner, ?_⟩
    -- Both methods ask `isSuccessor` first, and neither opens a file after a refusal.
    cases call with
    | readFile filename owner =>
      simp only [Call.body, DirectoryBody.perform, DirectoryBody.result_bind, Holds.readFile hs,
        FileStoreHandler.readFile_of_not_owner (h := ⟨node, s.files digest⟩) hsucc]
    | writeFile rFile =>
      simp only [Call.body, DirectoryBody.perform, DirectoryBody.result_bind, Holds.writeFile hs,
        FileStoreHandler.writeFile_of_not_owner (h := ⟨node, s.files digest⟩) hsucc]
  | error f =>
    refine ⟨f, ?_⟩
    cases call with
    | readFile filename owner =>
      simp only [Call.body, DirectoryBody.perform, DirectoryBody.result_bind, Holds.readFile hs,
        FileStoreHandler.readFile_of_error (h := ⟨node, s.files digest⟩) hsucc]
    | writeFile rFile =>
      simp only [Call.body, DirectoryBody.perform, DirectoryBody.result_bind, Holds.writeFile hs,
        FileStoreHandler.writeFile_of_error (h := ⟨node, s.files digest⟩) hsucc]

/-- **What an owned file reads as**: the last successful write to its id, or an exception when
there is none. -/
theorem Kept.read_owned (hs : s.Kept digest) {filename owner : Str}
    (hsucc : node.isSuccessor (fileId digest filename owner) = .ok true) :
    (Body.readFile digest node filename owner).result s.dir
      = (match (s.writtenTo digest (fileId digest filename owner)).getLast? with
        | none => .error (.systemException "File does not exist")
        | some last => .ok (FileStoreHandler.stamped digest last (Int32.ofNat
            ((s.writtenTo digest (fileId digest filename owner)).length - 1))), s.dir) := by
  rw [Holds.readFile hs, FileStoreHandler.readFile_of_owner (h := ⟨node, s.files digest⟩) hsucc]
  simp only [files]
  cases (s.writtenTo digest (fileId digest filename owner)).getLast? with
  | none => rfl
  | some last => rfl

/-- Every sequence of calls keeps the files. -/
theorem kept_foldl (calls : List Call) (hs : s.Kept digest) :
    (calls.foldl (Served.serve digest node) s).Kept digest := by
  induction calls generalizing s with
  | nil => exact hs
  | cons call calls ih => exact ih (hs.serve call)

/-- So the files of a history hold what has been written. -/
theorem kept_history (digest : Digest) (node : LocalNode) (calls : List Call) :
    (history digest node calls).Kept digest :=
  kept_foldl calls fun _ => rfl

/-- A call writes at most one record. -/
theorem length_written_foldl (calls : List Call) :
    (calls.foldl (Served.serve digest node) s).written.length
      ≤ s.written.length + calls.countP Call.isWrite := by
  induction calls generalizing s with
  | nil => exact Nat.le_refl _
  | cons call calls ih =>
    have hone : (s.serve digest node call).written.length
        ≤ s.written.length + if call.isWrite then 1 else 0 := by
      unfold Served.serve
      split
      · cases call with
        | readFile filename owner => simp [Call.record?, Call.isWrite]
        | writeFile rFile => simp [Call.record?, Call.isWrite]
      · exact Nat.le_add_right _ _
    have hrest := ih (s := s.serve digest node call)
    rw [List.foldl_cons, List.countP_cons]
    omega

/-- **The history of the files.** After any calls on a server that starts in an empty directory,
fewer than `2 ^ 31` of them writes, an owned file reads as its last successful write, with the
digest of the content and the number of earlier writes; a call about a file that is not owned
throws and changes nothing, and a read changes nothing. -/
theorem file_history (digest : Digest) (node : LocalNode) (calls : List Call)
    (hfew : calls.countP Call.isWrite < 2 ^ 31) :
    (∀ filename owner, node.isSuccessor (fileId digest filename owner) = .ok true →
      ((∃ f, ((Body.readFile digest node filename owner).result
            (history digest node calls).dir).1 = .error f) ↔
        (history digest node calls).writtenTo digest (fileId digest filename owner) = []) ∧
      ∀ last, ((history digest node calls).writtenTo digest
          (fileId digest filename owner)).getLast? = some last →
        ∃ file metadata version, ((Body.readFile digest node filename owner).result
            (history digest node calls).dir).1 = .ok file ∧
          file.content = last.content ∧ file.metadata = some metadata ∧
          metadata.contentHash = some (sha256 digest (last.content.getD [])) ∧
          metadata.version = some version ∧
          version.toInt = ((history digest node calls).writtenTo digest
            (fileId digest filename owner)).length - 1) ∧
    (∀ call : Call, node.isSuccessor (call.id digest) ≠ .ok true →
      ∃ f, (call.body digest node).result (history digest node calls).dir
        = (.error f, (history digest node calls).dir)) ∧
    ∀ filename owner, ((Body.readFile digest node filename owner).result
      (history digest node calls).dir).2 = (history digest node calls).dir := by
  have hkept := kept_history digest node calls
  refine ⟨fun filename owner hsucc => ?_, fun call hcall => hkept.body_of_not_owner hcall,
    fun filename owner => by rw [Holds.readFile hkept]⟩
  rw [hkept.read_owned hsucc]
  generalize hwrites : (history digest node calls).writtenTo digest
    (fileId digest filename owner) = writes
  constructor
  · constructor
    · rintro ⟨f, hf⟩
      cases hlast : writes.getLast? with
      | none => exact List.getLast?_eq_none_iff.mp hlast
      | some last =>
        rw [hlast] at hf
        cases hf
    · rintro rfl
      exact ⟨_, rfl⟩
  · intro last hlast
    -- the version, one less than the number of writes, fits in 32 bits
    have hlen : writes.length ≤ calls.countP Call.isWrite := by
      calc writes.length ≤ (history digest node calls).written.length := by
            rw [← hwrites]
            exact List.length_filter_le _ _
        _ ≤ 0 + calls.countP Call.isWrite := length_written_foldl calls
        _ = calls.countP Call.isWrite := Nat.zero_add _
    have hpos : 0 < writes.length := by
      apply List.length_pos_iff.mpr
      rintro rfl
      cases hlast
    refine ⟨FileStoreHandler.stamped digest last (Int32.ofNat (writes.length - 1)), _, _, ?_, rfl,
      rfl, rfl, rfl, ?_⟩
    · rw [hlast]
    · rw [Int32.toInt_ofNat_of_lt (by omega)]
      omega

/-- Two writes of `bob`, with a read before and one of another file between them. -/
def twoNotes : List Call :=
  [.readFile (str "notes") (str "bob"),
    .writeFile (FileStoreHandler.note "notes" "bob" "x"),
    .writeFile (FileStoreHandler.note "notes" "alice" "z"),
    .writeFile (FileStoreHandler.note "notes" "bob" "y")]

/-- A note is written twice and read: it has the second content. -/
theorem file_history_notes : ∃ file metadata version,
    ((Body.readFile FileStoreHandler.noteDigest FileStoreHandler.aloneHandler.node (str "notes")
      (str "bob")).result (history FileStoreHandler.noteDigest FileStoreHandler.aloneHandler.node
        twoNotes).dir).1 = .ok file ∧
    file.content = some (str "y") ∧ file.metadata = some metadata ∧
    metadata.contentHash = some (sha256 FileStoreHandler.noteDigest (str "y")) ∧
    metadata.version = some version ∧ version.toInt = (2 : ℕ) - 1 := by
  have hhistory := file_history FileStoreHandler.noteDigest FileStoreHandler.aloneHandler.node
    twoNotes (by decide)
  have hread := (hhistory.1 (str "notes") (str "bob") (by decide +kernel)).2
    (FileStoreHandler.note "notes" "bob" "y") (by decide +kernel)
  have htwo : ((history FileStoreHandler.noteDigest FileStoreHandler.aloneHandler.node
      twoNotes).writtenTo FileStoreHandler.noteDigest (fileId FileStoreHandler.noteDigest
        (str "notes") (str "bob"))).length = 2 := by decide +kernel
  rw [htwo] at hread
  exact hread

end Served

end Cs457.Chord
