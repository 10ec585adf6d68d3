import Cs457.Chord.FileStore
import Cs457.Lib.BinaryProtocol

/-!
# Chord — the structs on the wire

`SystemException`, `RFileMetadata`, `RFile` and `NodeID` of `chord.thrift`, as the generated code
writes and reads them, over any protocol. All but `NodeID` have optional members, which are left
out when they are not set.

* **`Wire.rFile_fits_iff`** — the records that fit the wire: their strings are short.
* **`Wire.returns_rFile`** — what is read off the wire fits it.
-/

namespace Cs457.Chord

open Reading TaggedStruct

/-- `SystemException` of `chord.thrift`. -/
structure SystemException where
  message : Option Str := none
  deriving DecidableEq, Repr

variable (P : TProtocol)

namespace Wire

theorem nodup_one : [(1 : Int16)].Nodup := by decide

theorem nodup_two : [(1 : Int16), 2].Nodup := by decide

def systemException : Struct P SystemException where
  name := str "SystemException"
  default := {}
  members := [.string (str "message") 1 (·.message) fun r s => { r with message := some s }]
  ids := nodup_one
  commute := List.pairwise_singleton _ _
  complete x := by
    rcases x with ⟨_ | s⟩ <;> rfl

def rFileMetadata : Struct P RFileMetadata where
  name := str "RFileMetadata"
  default := {}
  members :=
    [.string (str "filename") 1 (·.filename) fun r s => { r with filename := some s },
      .i32 (str "version") 2 (·.version) fun r n => { r with version := some n },
      .string (str "owner") 3 (·.owner) fun r s => { r with owner := some s },
      .string (str "contentHash") 4 (·.contentHash) fun r s => { r with contentHash := some s }]
  ids := show [1, 2, 3, 4].Nodup by decide
  commute := by
    simp only [List.pairwise_cons, List.mem_cons, List.not_mem_nil, or_false, forall_eq_or_imp,
      forall_eq, List.Pairwise.nil, and_true, IsEmpty.forall_iff, implies_true]
    refine ⟨⟨?_, ?_, ?_⟩, ⟨?_, ?_⟩, ?_⟩ <;>
      exact fun x r => by
        rcases x with ⟨_ | f, _ | v, _ | o, _ | c⟩ <;> rfl
  complete x := by
    rcases x with ⟨_ | f, _ | v, _ | o, _ | c⟩ <;> rfl

def rFile : Struct P RFile where
  name := str "RFile"
  default := {}
  members :=
    [.struct (rFileMetadata P) (str "meta") 1 (·.metadata)
        (fun r m => { r with metadata := some m }) fun r => r.metadata.getD {},
      .string (str "content") 2 (·.content) fun r s => { r with content := some s }]
  ids := nodup_two
  commute := by
    rw [List.pairwise_pair]
    rintro ⟨_ | m, _ | c⟩ r <;> rfl
  complete x := by
    rcases x with ⟨_ | m, _ | c⟩
    · rfl
    · rfl
    · show RFile.mk (some ((rFileMetadata P).copyAll m {})) none = _
      rw [show (rFileMetadata P).copyAll m {} = m from (rFileMetadata P).complete m]
    · show RFile.mk (some ((rFileMetadata P).copyAll m {})) (some c) = _
      rw [show (rFileMetadata P).copyAll m {} = m from (rFileMetadata P).complete m]

/-- The members of `NodeID` are not optional. -/
def nodeID : Struct P NodeID where
  name := str "NodeID"
  default := ⟨[], [], 0⟩
  members :=
    [.string (str "id") 1 (fun x => some x.id) fun r s => { r with id := s },
      .string (str "ip") 2 (fun x => some x.ip) fun r s => { r with ip := s },
      .i32 (str "port") 3 (fun x => some x.port) fun r n => { r with port := n }]
  ids := show [1, 2, 3].Nodup by decide
  commute := by
    simp only [List.pairwise_cons, List.mem_cons, List.not_mem_nil, or_false, forall_eq_or_imp,
      forall_eq, List.Pairwise.nil, and_true, IsEmpty.forall_iff, implies_true]
    exact ⟨⟨fun _ _ => rfl, fun _ _ => rfl⟩, fun _ _ => rfl⟩
  complete _ := rfl

/-! ## What fits -/

variable {P}

theorem string_fits {ρ : Type} {name : Str} {id : Int16} {get : ρ → Option Str}
    {set : ρ → Str → ρ} {x : ρ} :
    (Member.string (P := P) name id get set).Fits x ↔ ∀ s ∈ get x, Short s := Iff.rfl

/-- Metadata fits when its strings are short. -/
theorem rFileMetadata_fits_iff {m : RFileMetadata} : (rFileMetadata P).Fits m ↔
    (∀ s ∈ m.filename, Short s) ∧ (∀ s ∈ m.owner, Short s) ∧ ∀ s ∈ m.contentHash, Short s := by
  simp only [Struct.Fits, rFileMetadata, List.forall_mem_cons, string_fits, List.not_mem_nil,
    IsEmpty.forall_iff, implies_true, and_true]
  exact ⟨fun h => ⟨h.1, h.2.2.1, h.2.2.2⟩, fun h => ⟨h.1, fun _ _ => trivial, h.2.1, h.2.2⟩⟩

/-- A file fits when its metadata and its content do. -/
theorem rFile_fits_iff {file : RFile} : (rFile P).Fits file ↔
    (∀ m ∈ file.metadata, (rFileMetadata P).Fits m) ∧ ∀ s ∈ file.content, Short s := by
  simp only [Struct.Fits, rFile, List.forall_mem_cons, string_fits, List.not_mem_nil,
    IsEmpty.forall_iff, implies_true, and_true]
  exact Iff.rfl

/-- A node fits when its id and its address are short. -/
theorem nodeID_fits_iff {x : NodeID} : (nodeID P).Fits x ↔ Short x.id ∧ Short x.ip := by
  simp only [Struct.Fits, nodeID, List.forall_mem_cons, string_fits, List.not_mem_nil,
    IsEmpty.forall_iff, implies_true, and_true, Option.mem_def, Option.some.injEq, forall_eq']
  exact ⟨fun h => ⟨h.1, h.2.1⟩, fun h => ⟨h.1, h.2, fun _ _ => trivial⟩⟩

/-- An exception fits when its message is short. -/
theorem systemException_fits_iff {e : SystemException} :
    (systemException P).Fits e ↔ ∀ s ∈ e.message, Short s := by
  simp only [Struct.Fits, systemException, List.forall_mem_cons, string_fits, List.not_mem_nil,
    IsEmpty.forall_iff, implies_true, and_true]

/-- A hash in hexadecimal is short. -/
theorem short_sha256 (digest : Digest) (message : Str) : Short (sha256 digest message) := by
  rw [Short, (isId_sha256 digest message).length]
  decide

/-! ## What is read -/

/-- Whatever fields come, what is read fits if the default does. -/
theorem returns_rFileMetadata {m : RFileMetadata} (h : (rFileMetadata P).Fits m) :
    Returns ((rFileMetadata P).read m) (rFileMetadata P).Fits := by
  refine Struct.returns_read (fun member hmember m hm => ?_) h
  obtain ⟨hfilename, howner, hhash⟩ := rFileMetadata_fits_iff.mp hm
  simp only [rFileMetadata, List.mem_cons, List.not_mem_nil, or_false] at hmember
  rcases hmember with rfl | rfl | rfl | rfl
  · exact Member.returns_string fun a ha => rFileMetadata_fits_iff.mpr
      ⟨fun s hs => Option.some.inj hs ▸ ha, howner, hhash⟩
  · exact Member.returns_i32 fun n => rFileMetadata_fits_iff.mpr ⟨hfilename, howner, hhash⟩
  · exact Member.returns_string fun a ha => rFileMetadata_fits_iff.mpr
      ⟨hfilename, fun s hs => Option.some.inj hs ▸ ha, hhash⟩
  · exact Member.returns_string fun a ha => rFileMetadata_fits_iff.mpr
      ⟨hfilename, howner, fun s hs => Option.some.inj hs ▸ ha⟩

/-- A record that is read over one that fits. Its metadata may come more than once. -/
theorem returns_rFile {file : RFile} (h : (rFile P).Fits file) :
    Returns ((rFile P).read file) (rFile P).Fits := by
  refine Struct.returns_read (fun member hmember file hfile => ?_) h
  obtain ⟨hmeta, hcontent⟩ := rFile_fits_iff.mp hfile
  have hthere : (rFileMetadata P).Fits (file.metadata.getD {}) := by
    cases hm : file.metadata with
    | some m => exact hmeta m hm
    | none => exact rFileMetadata_fits_iff.mpr ⟨by simp, by simp, by simp⟩
  simp only [rFile, List.mem_cons, List.not_mem_nil, or_false] at hmember
  rcases hmember with rfl | rfl
  · exact Member.returns_struct (returns_rFileMetadata hthere) fun m hm => rFile_fits_iff.mpr
      ⟨fun m' hm' => Option.some.inj hm' ▸ hm, hcontent⟩
  · exact Member.returns_string fun a ha => rFile_fits_iff.mpr
      ⟨hmeta, fun s hs => Option.some.inj hs ▸ ha⟩

/-- So does a node. -/
theorem returns_nodeID {x : NodeID} (h : (nodeID P).Fits x) :
    Returns ((nodeID P).read x) (nodeID P).Fits := by
  refine Struct.returns_read (fun member hmember x hx => ?_) h
  obtain ⟨hid, hip⟩ := nodeID_fits_iff.mp hx
  simp only [nodeID, List.mem_cons, List.not_mem_nil, or_false] at hmember
  rcases hmember with rfl | rfl | rfl
  · exact Member.returns_string fun a ha => nodeID_fits_iff.mpr ⟨ha, hip⟩
  · exact Member.returns_string fun a ha => nodeID_fits_iff.mpr ⟨hid, ha⟩
  · exact Member.returns_i32 fun n => nodeID_fits_iff.mpr ⟨hid, hip⟩

/-- A record that is stamped still fits. -/
theorem stamped_fits {digest : Digest} {file : RFile} (h : (rFile P).Fits file) (version : Int32) :
    (rFile P).Fits (FileStoreHandler.stamped digest file version) := by
  obtain ⟨hmeta, hcontent⟩ := rFile_fits_iff.mp h
  have hgiven : (rFileMetadata P).Fits (file.metadata.getD {}) := by
    cases hm : file.metadata with
    | some m => exact hmeta m hm
    | none => exact rFileMetadata_fits_iff.mpr ⟨by simp, by simp, by simp⟩
  obtain ⟨hfilename, howner, _⟩ := rFileMetadata_fits_iff.mp hgiven
  refine rFile_fits_iff.mpr ⟨fun m hm => ?_, hcontent⟩
  obtain rfl := Option.some.inj hm
  refine rFileMetadata_fits_iff.mpr ⟨hfilename, howner, fun s hs => ?_⟩
  obtain rfl := Option.some.inj hs
  exact short_sha256 digest _

end Wire

end Cs457.Chord
