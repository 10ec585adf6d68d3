import Cs457.Chord.Directory
import Cs457.Chord.ThriftTypes
import Cs457.Lib.Framing
import Cs457.Lib.Transition

/-!
# Chord — the files as bytes

The directory of a server with the bytes that are in its files. A write puts those of
`RFile::write` through a transport into a new file, and a read calls `RFile::read` on what the
transport finds in it. The transport is `TFileTransport`, of which only one thing is used: what is
written to a new file is read from it again. A file may also have been written by someone else who
puts the members in another order, knows more of them or leaves some out.

* **`encoded`** — a record as the bytes of a file.
* **`disk_history`** — any sequence of calls, on the bytes and on the records.
-/

namespace Cs457.Chord

open Reading TaggedStruct Transition

/-- `TFileTransport`: the bytes of a file after `bytes` have been written to it, and the bytes
that are read from it, which are not those of the file itself. A record of up to `limit` bytes is
kept. -/
structure FileTransport where
  write (old bytes : List UInt8) : List UInt8
  read (file : List UInt8) : List UInt8
  limit : ℕ
  read_write {bytes : List UInt8} : bytes.length ≤ limit → read (write [] bytes) = bytes

/-- The bytes of each file of the working directory. -/
abbrev Disk := Directory (List UInt8)

/-- A record in the encoding of a protocol; bytes that are no record are an exception. -/
def encoded (P : TProtocol) (T : FileTransport) : FileFormat (List UInt8) where
  write old file := T.write (old.getD []) ((Wire.rFile P).write file)
  read bytes := (((Wire.rFile P).read {}).run (T.read bytes)).map Prod.fst
  Fits file := (Wire.rFile P).Fits file ∧ ((Wire.rFile P).write file).length ≤ T.limit
  read_write := by
    rintro file ⟨hfits, hlength⟩
    have hread : ((Wire.rFile P).read {}).run ((Wire.rFile P).write file) = some (file, []) :=
      (Struct.encodes_write hfits).reads_default.run_nil
    rw [Option.getD_none, T.read_write hlength, hread, Option.map_some]

section Encoded

variable {P : TProtocol} {T : FileTransport}

/-- Whoever has written a file, it reads as its first record. -/
theorem encoded_read_eq {file : RFile} {content bytes rest : List UInt8}
    (hcontent : T.read content = bytes ++ rest) (hbytes : (Wire.rFile P).Encodes file bytes) :
    (encoded P T).read content = some file := by
  have hread : ((Wire.rFile P).read {}).run (bytes ++ rest) = some (file, rest) :=
    hbytes.reads_default rest
  simp only [encoded, hcontent, hread, Option.map_some]

/-- What a file reads as fits the wire again. -/
theorem fits_of_encoded_read {file : RFile} {content : List UInt8}
    (h : (encoded P T).read content = some file) : (Wire.rFile P).Fits file := by
  obtain ⟨⟨file, rest⟩, hread, rfl⟩ := Option.map_eq_some_iff.mp h
  have hdefault : (Wire.rFile P).Fits {} := Wire.rFile_fits_iff.mpr ⟨by simp, by simp⟩
  exact Wire.returns_rFile hdefault _ file rest hread

end Encoded

/-! ## Any sequence of calls -/

/-- A call on the bytes. -/
def onDisk (P : TProtocol) (T : FileTransport) (digest : Digest) (node : LocalNode) (call : Call)
    (disk : Disk) : Except Fault (Option RFile) × Disk :=
  (DirectoryBody.perform (encoded P T) digest node call).result disk

/-- **Any sequence of calls** has the same outcomes on the bytes as on the records, from any
directory whose files read as records. -/
theorem disk_history (P : TProtocol) (T : FileTransport) (digest : Digest) (node : LocalNode)
    {calls : List Call} (hfits : ∀ call ∈ calls, call.Fits (encoded P T) digest) {disk : Disk}
    {files : Str → Option RFile} (h : Holds (encoded P T) disk files) :
    (outcomes (onDisk P T digest node) calls disk).1
        = (outcomes (onRecords digest node) calls files).1 ∧
      Holds (encoded P T) (outcomes (onDisk P T digest node) calls disk).2
        (outcomes (onRecords digest node) calls files).2 :=
  outcomes_related (fun call hcall _ _ hholds => hholds.perform (hfits call hcall)) h

/-! ## A file of events -/

/-- Events, each behind its size as an x86 stores it. -/
def eventFraming : Framing where
  width := 4
  header n := (BigEndian.toBytes 4 n).reverse
  size bytes := BigEndian.ofBytes bytes.reverse
  bound := 2 ^ 32
  width_pos := by decide
  length_header n := by rw [List.length_reverse, BigEndian.length_toBytes]
  size_header n hn := by
    rw [List.reverse_reverse, BigEndian.ofBytes_toBytes_of_lt (show n < 256 ^ 4 by omega)]

/-- The writes by which `TBinaryProtocol` puts a record out: the type of a field, its number, and
its value, a string in two. Every turn takes a byte. -/
def pieces : ℕ → List UInt8 → List (List UInt8)
  | 0, bytes => [bytes]
  | _ + 1, [] => []
  | turns + 1, code :: rest =>
    let value := rest.drop 2
    if code = 0 then [code] :: pieces turns rest
    else if code = 12 then [code] :: rest.take 2 :: pieces turns value
    else if code = 8 then [code] :: rest.take 2 :: value.take 4 :: pieces turns (value.drop 4)
    else
      let size := BigEndian.ofBytes (value.take 4)
      [code] :: rest.take 2 :: value.take 4 :: (value.drop 4).take size ::
        pieces turns ((value.drop 4).drop size)

/-- The pieces one after the other are the bytes. -/
theorem flatten_pieces (turns : ℕ) (bytes : List UInt8) : (pieces turns bytes).flatten = bytes := by
  induction turns, bytes using pieces.induct with
  | case1 bytes => rw [pieces, List.flatten_cons, List.flatten_nil, List.append_nil]
  | case2 turns => rfl
  | case3 turns rest ih =>
    rw [pieces, if_pos rfl, List.flatten_cons, ih, List.singleton_append]
  | case4 turns rest value hstop ih =>
    rw [pieces, if_neg hstop, if_pos rfl]
    simp only [List.flatten_cons, ih, value, List.take_append_drop, List.singleton_append]
  | case5 turns rest value hstop hstruct ih =>
    rw [pieces, if_neg hstop, if_neg hstruct, if_pos rfl]
    simp only [List.flatten_cons, ih, value, List.take_append_drop, List.singleton_append]
  | case6 turns code rest value hstop hstruct hi32 size ih =>
    rw [pieces, if_neg hstop, if_neg hstruct, if_neg hi32]
    simp only [List.flatten_cons, ih, value, size, List.take_append_drop, List.singleton_append]

/-- The transport as it works on a file that is smaller than its first chunk: an event for each
write, and none for an empty one. -/
def eventTransport : FileTransport where
  write old bytes :=
    old ++ eventFraming.stream ((pieces bytes.length bytes).filter (· ≠ []))
  read file := (eventFraming.read (file.length + 1) file).flatten
  limit := 3 * 2 ^ 20
  read_write {bytes} hlength := by
    have hbound : ∀ piece ∈ (pieces bytes.length bytes).filter (· ≠ []),
        piece.length < eventFraming.bound := by
      intro piece hpiece
      have hle : piece.length ≤ (pieces bytes.length bytes).flatten.length :=
        (List.sublist_flatten_of_mem (List.mem_of_mem_filter hpiece)).length_le
      rw [flatten_pieces] at hle
      exact hle.trans_lt (hlength.trans_lt (by decide))
    rw [List.nil_append, Framing.read_stream hbound (Nat.lt_succ_self _),
      List.flatten_filter_ne_nil, flatten_pieces]

/-- A record takes little more than its strings. -/
theorem length_rFile_le (file : RFile) : ((Wire.rFile binaryProtocol).write file).length
    ≤ 40 + (((file.metadata.getD {}).filename.getD []).length
      + ((file.metadata.getD {}).owner.getD []).length
      + ((file.metadata.getD {}).contentHash.getD []).length + (file.content.getD []).length) := by
  have hmeta : ∀ m : RFileMetadata, ((Wire.rFileMetadata binaryProtocol).write m).length
      ≤ 29 + ((m.filename.getD []).length + (m.owner.getD []).length
        + (m.contentHash.getD []).length) := by
    rintro ⟨filename, version, owner, contentHash⟩
    rw [Struct.write, length_writeStruct]
    rcases filename with _ | filename <;> rcases version with _ | version <;>
      rcases owner with _ | owner <;> rcases contentHash with _ | contentHash <;>
      simp [Wire.rFileMetadata, Member.field?, Member.string, Member.i32, Member.ofValue,
        List.filterMap_cons] <;> omega
  obtain ⟨metadata, content⟩ := file
  rw [Struct.write, length_writeStruct]
  rcases metadata with _ | m <;> rcases content with _ | content <;>
    simp [Wire.rFile, Member.field?, Member.string, Member.struct, Member.ofValue,
      List.filterMap_cons]
  · omega
  · have := hmeta m
    omega
  · have := hmeta m
    omega

/-- A small file is kept. -/
theorem write_kept {rFile : RFile} (digest : Digest)
    (hfits : (Wire.rFile binaryProtocol).Fits rFile)
    (h : ((rFile.metadata.getD {}).filename.getD []).length
      + ((rFile.metadata.getD {}).owner.getD []).length
      + (rFile.content.getD []).length ≤ 2 ^ 20) :
    (Call.writeFile rFile).Fits (encoded binaryProtocol eventTransport) digest := by
  intro file hfile version
  obtain rfl := Option.some.inj hfile
  refine ⟨Wire.stamped_fits hfits version, ?_⟩
  have hsize := length_rFile_le (FileStoreHandler.stamped digest rFile version)
  have hhash := (isId_sha256 digest (rFile.content.getD [])).length
  simp only [FileStoreHandler.stamped, Option.getD_some, hhash] at hsize
  exact hsize.trans (show _ ≤ 3 * 2 ^ 20 by omega)

namespace FileStoreHandler

/-- A file of `bob` as a program writes it that puts the content first and a number of its own
behind it. -/
def foreignFields : List TProtocol.Field :=
  [⟨str "content", .string, 2, binaryProtocol.writeString (str "x")⟩,
    ⟨str "mode", .i32, 7, binaryProtocol.writeI32 420⟩,
    ⟨str "meta", .struct, 1, (Wire.rFileMetadata binaryProtocol).write
      { filename := some (str "notes"), owner := some (str "bob") }⟩]

def foreignDisk : Disk :=
  Function.update (fun _ => none) (fileId noteDigest (str "notes") (str "bob"))
    (some (eventTransport.write [] (binaryProtocol.writeStruct [] foreignFields)))

def foreignFiles : Str → Option RFile :=
  Function.update (fun _ => none) (fileId noteDigest (str "notes") (str "bob"))
    (some (note "notes" "bob" "x"))

/-- A note whose strings are short fits the protocol. -/
theorem note_fits (filename owner content : String) (hf : Short (str filename))
    (ho : Short (str owner)) (hc : Short (str content)) :
    (Wire.rFile binaryProtocol).Fits (note filename owner content) := by
  refine Wire.rFile_fits_iff.mpr ⟨fun m hm => ?_, fun s hs => Option.some.inj hs ▸ hc⟩
  obtain rfl := Option.some.inj hm
  exact Wire.rFileMetadata_fits_iff.mpr ⟨fun s hs => Option.some.inj hs ▸ hf,
    fun s hs => Option.some.inj hs ▸ ho, by simp⟩

/-- The file of another client holds the record that its known fields make up. -/
theorem foreign_holds : Holds (encoded binaryProtocol eventTransport) foreignDisk foreignFiles := by
  intro id
  by_cases heq : id = fileId noteDigest (str "notes") (str "bob")
  · subst heq
    have hencodes : (Wire.rFile binaryProtocol).Encodes (note "notes" "bob" "x")
        (binaryProtocol.writeStruct [] foreignFields) := by
      refine ⟨[], foreignFields, rfl, List.Perm.swap _ _ _, ?_⟩
      simp only [foreignFields, List.forall_mem_cons]
      refine ⟨⟨_, rfl, by decide, rfl⟩, ⟨by decide, fun rest => rfl⟩, ⟨_, rfl, ?_⟩, by simp⟩
      exact Struct.encodes_write
        (Wire.rFileMetadata_fits_iff.mpr ⟨by decide, by decide, by decide⟩)
    have hcontent : eventTransport.read (eventTransport.write []
        (binaryProtocol.writeStruct [] foreignFields))
          = binaryProtocol.writeStruct [] foreignFields ++ [] := by
      rw [eventTransport.read_write (show _ ≤ 3 * 2 ^ 20 by decide), List.append_nil]
    rw [foreignFiles, foreignDisk, Function.update_self, Function.update_self, Option.map_some,
      Option.map_some, encoded_read_eq hcontent hencodes]
  · rw [foreignFiles, foreignDisk, Function.update_of_ne heq, Function.update_of_ne heq]
    rfl

/-- The file is read, written over and read again. -/
theorem disk_history_foreign :
    (outcomes (onDisk binaryProtocol eventTransport noteDigest aloneHandler.node)
      [.readFile (str "notes") (str "bob"), .writeFile (note "notes" "bob" "y"),
        .readFile (str "notes") (str "bob")] foreignDisk).1
      = (outcomes (onRecords noteDigest aloneHandler.node)
        [.readFile (str "notes") (str "bob"), .writeFile (note "notes" "bob" "y"),
          .readFile (str "notes") (str "bob")] foreignFiles).1 := by
  refine (disk_history binaryProtocol eventTransport noteDigest aloneHandler.node ?_
    foreign_holds).1
  intro call hcall
  simp only [List.mem_cons, List.not_mem_nil, or_false] at hcall
  rcases hcall with rfl | rfl | rfl
  · exact fun rFile h => (by cases h)
  · exact write_kept _ (note_fits _ _ _ (by decide) (by decide) (by decide)) (by decide)
  · exact fun rFile h => (by cases h)

end FileStoreHandler

end Cs457.Chord
