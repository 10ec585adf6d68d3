import Cs457.Chord.Linking
import Cs457.Chord.Rpc

/-!
# Chord — the handler behind the processor

`FileStoreHandler` with all its methods, as the processor calls it. What the handler asks of other
servers is a parameter.

* **`FileStoreHandler.keeps`** — what the handler returns fits the wire.
-/

namespace Cs457.Chord

open Reading TaggedStruct

variable {P : TProtocol}

/-! ## The methods -/

/-- A fault as the processor sees it; `refused` is the text of a transport's exception. -/
def thrown (refused : Str) : Fault → Thrown
  | .systemException text => .systemException { message := some (str text) }
  | .transport => .exception refused

namespace FileStoreHandler

/-- Calls of other servers, `call_rpc`. -/
abbrev CallRpc := Str × Int32 → Request → Except Thrown Answer

/-- `_return`, which a call of another server fills. -/
def returned : Except Thrown Answer → Except Thrown NodeID
  | .ok (.node node) => .ok node
  | .ok _ => .ok ⟨[], [], 0⟩
  | .error t => .error t

/-- `find_successor` and `find_predecessor`, with the call of the next server. -/
def lookup (refused : Str) (callRpc : CallRpc) (answers : LocalNode → Str → Except Fault Bool)
    (noFingertable : String) (request : Str → Request) (n : LocalNode) (key : Str) :
    Except Thrown NodeID :=
  match answers n key with
  | .error f => .error (thrown refused f)
  | .ok true => .ok n.toNodeID
  | .ok false =>
    match n.closestPrecedingNode key with
    | none => .error (thrown refused (.systemException noFingertable))
    | some node => returned (callRpc (node.ip, node.port) (request key))

/-- The methods over the state of a server. -/
def methods (digest : Digest) (refused : Str) (callRpc : CallRpc) :
    FileStoreIf FileStoreHandler where
  writeFile rFile h :=
    match h.writeFile digest rFile with
    | .ok h' => (.ok (), h')
    | .error f => (.error (thrown refused f), h)
  readFile filename owner h :=
    ((h.readFile digest filename owner).mapError (thrown refused), h)
  setFingertable front others h :=
    let node := h.node.keepFingertable digest (front :: others)
    -- only the id of the first finger is computed again
    ((callRpc (front.ip, front.port) (.setPredecessor node.toNodeID)).map fun _ => (),
      { h with node := node })
  findSucc key h :=
    (lookup refused callRpc LocalNode.isSuccessor "No fingertable, can't find successor"
      .findSucc h.node key, h)
  findPred key h :=
    (lookup refused callRpc LocalNode.isPredecessor "Unknown successor, can't find successor"
      .findPred h.node key, h)
  getNodeSucc h := (h.node.getSuccessor.mapError (thrown refused), h)
  setPredecessor node h := (.ok (), { h with node := h.node.setPredecessor node })

/-! ## What the handler returns fits the wire -/

end FileStoreHandler

namespace Wire

/-- A record that a call hands over fits. -/
theorem fits_of_writeFileArgs {rFile : RFile} {args : List UInt8}
    (h : Reads ((writeFileArgs P).read {}) args ⟨rFile⟩) : (Wire.rFile P).Fits rFile := by
  have hargs : Returns ((writeFileArgs P).read {}) fun a => (Wire.rFile P).Fits a.rFile := by
    refine Struct.returns_read (fun m hm a ha => ?_) (rFile_fits_iff.mpr ⟨by simp, by simp⟩)
    rw [List.mem_singleton.mp hm]
    exact Member.returns_struct (returns_rFile ha) fun f hf => hf
  exact hargs.of_reads h

/-- The nodes that a call hands over fit. -/
theorem fits_of_setFingertableArgs {nodeList : List NodeID} {args : List UInt8}
    (h : Reads ((setFingertableArgs P).read {}) args ⟨nodeList⟩) :
    ∀ x ∈ nodeList, (nodeID P).Fits x := by
  have hargs : Returns ((setFingertableArgs P).read {})
      fun a => ∀ x ∈ a.nodeList, (nodeID P).Fits x := by
    refine Struct.returns_read (fun m hm a ha => ?_) (List.forall_mem_nil _)
    rw [List.mem_singleton.mp hm]
    have hdefault : (nodeID P).Fits (nodeID P).default :=
      nodeID_fits_iff.mpr ⟨show Short ([] : Str) by decide, show Short ([] : Str) by decide⟩
    exact Member.returns_list (returns_nodeID hdefault) fun l hl => hl
  exact hargs.of_reads h

end Wire

namespace FileStoreHandler

/-- The nodes and the records that a server holds fit. -/
structure Fits (P : TProtocol) (h : FileStoreHandler) : Prop where
  self : (Wire.nodeID P).Fits h.node.toNodeID
  fingers : ∀ x ∈ h.node.fingertable, (Wire.nodeID P).Fits x
  files : ∀ id, ∀ file ∈ h.files id, (Wire.rFile P).Fits file

/-- The texts of the exceptions of a server. -/
def texts : List String :=
  ["Node is not owner of file", "File does not exist",
    "Unknown predecessor, can't determine if is successor",
    "Unknown successor, can't determine if is predecessor",
    "Empty fingertable, can't get successor", "No fingertable, can't find successor",
    "Unknown successor, can't find successor"]

def Known (f : Fault) : Prop := f = .transport ∨ ∃ text ∈ texts, f = .systemException text

/-- What is thrown has a short text. -/
theorem short_thrown {refused : Str} (hrefused : Short refused) {f : Fault} (h : Known f) :
    Short (thrown refused f).what := by
  have htexts : ∀ text ∈ texts, Short (SystemException.mk (some (str text))).what := by
    decide
  rcases h with rfl | ⟨text, htext, rfl⟩
  · exact hrefused
  · exact htexts text htext

variable {digest : Digest} {h : FileStoreHandler}

/-- `is_successor` throws one text only, that of a missing predecessor. -/
theorem known_isSuccessor {n : LocalNode} {key : Str} {f : Fault}
    (hf : n.isSuccessor key = .error f) : Known f := by
  unfold LocalNode.isSuccessor at hf
  split at hf
  · cases hf
    exact Or.inr ⟨"Unknown predecessor, can't determine if is successor", by decide, rfl⟩
  · cases hf

/-- So does `is_predecessor`, that of a missing finger table. -/
theorem known_isPredecessor {n : LocalNode} {key : Str} {f : Fault}
    (hf : n.isPredecessor key = .error f) : Known f := by
  unfold LocalNode.isPredecessor at hf
  split at hf
  · cases hf
    exact Or.inr ⟨"Unknown successor, can't determine if is predecessor", by decide, rfl⟩
  · cases hf

theorem known_notOwner : Known notOwner := Or.inr ⟨_, by decide, rfl⟩

/-- A file that is read was stored, or the text thrown is known. -/
theorem readFile_cases (filename owner : Str) :
    (∃ file, h.readFile digest filename owner = .ok file ∧
        h.files (fileId digest filename owner) = some file) ∨
      ∃ f, h.readFile digest filename owner = .error f ∧ Known f := by
  cases hsucc : h.node.isSuccessor (fileId digest filename owner) with
  | error f => exact Or.inr ⟨f, readFile_of_error hsucc, known_isSuccessor hsucc⟩
  | ok b =>
    cases b with
    | false => exact Or.inr ⟨_, readFile_of_not_owner hsucc, known_notOwner⟩
    | true =>
      rw [readFile_of_owner hsucc]
      cases hfile : h.files (fileId digest filename owner) with
      | none => exact Or.inr ⟨_, rfl, Or.inr ⟨_, by decide, rfl⟩⟩
      | some file => exact Or.inl ⟨file, rfl, rfl⟩

/-- What `write_file` throws is known. -/
theorem known_writeFile {rFile : RFile} {f : Fault} (hf : h.writeFile digest rFile = .error f) :
    Known f := by
  cases hsucc : h.node.isSuccessor (fileId digest (names rFile).1 (names rFile).2) with
  | error f' =>
    rw [writeFile_of_error hsucc] at hf
    exact Except.error.inj hf ▸ known_isSuccessor hsucc
  | ok b =>
    cases b with
    | false =>
      rw [writeFile_of_not_owner hsucc] at hf
      exact Except.error.inj hf ▸ known_notOwner
    | true =>
      rw [writeFile_of_owner hsucc] at hf
      cases hf

/-- A lookup that asks other servers ends with what fits the protocol, as long as their answers do.
-/
theorem short_lookup {refused : Str} (hrefused : Short refused) {callRpc : CallRpc}
    (hrpc : ∀ address request, OutcomeFits P (callRpc address request))
    {answers : LocalNode → Str → Except Fault Bool}
    (hanswers : ∀ n key f, answers n key = .error f → Known f) {noFingertable : String}
    (htext : noFingertable ∈ texts) (request : Str → Request) {n : LocalNode}
    (hself : (Wire.nodeID P).Fits n.toNodeID) (key : Str) :
    OutcomeFits P ((lookup refused callRpc answers noFingertable request n key).map .node) := by
  -- The branches of `findSucc` and `findPred`: an exception, the node itself, no finger, a call.
  unfold lookup
  split
  · next f hf => exact short_thrown hrefused (hanswers n key f hf)
  · exact hself
  · split
    · exact short_thrown hrefused (Or.inr ⟨_, htext, rfl⟩)
    · next node _ =>
      have hfits := hrpc (node.ip, node.port) (request key)
      unfold returned
      split
      · next callee heq =>
        rw [heq] at hfits
        exact hfits
      · exact Wire.nodeID_fits_iff.mpr ⟨by decide, by decide⟩
      · next t heq =>
        rw [heq] at hfits
        exact hfits

theorem short_nodeId (ip : Str) (port : Int32) : Short (nodeId digest ip port) :=
  Wire.short_sha256 digest _

/-- **The handler keeps its own state fit for the wire**, whatever comes over it. -/
theorem keeps {refused : Str} (hrefused : Short refused) {callRpc : CallRpc}
    (hrpc : ∀ address request, OutcomeFits P (callRpc address request)) :
    Keeps P (methods digest refused callRpc) (Fits P) := by
  constructor
  intro request args h hargs hfits
  -- Only `writeFile`, `setFingertable` and `setPredecessor` change the state; the rest is about the
  -- answers.
  cases request with
  | writeFile rFile =>
    have hrFile := Wire.fits_of_writeFileArgs hargs
    simp only [FileStoreIf.perform, methods, Prod.map_fst, Prod.map_snd]
    cases hwrite : h.writeFile digest rFile with
    | ok h' =>
      refine ⟨trivial, ?_⟩
      rw [id, writeFile_ok hwrite]
      refine ⟨hfits.self, hfits.fingers, fun id file hfile => ?_⟩
      simp only [Function.update_apply] at hfile
      split at hfile
      · rw [← Option.some.inj hfile]
        exact Wire.stamped_fits hrFile _
      · exact hfits.files id file hfile
    | error f => exact ⟨short_thrown hrefused (known_writeFile hwrite), hfits⟩
  | readFile filename owner =>
    refine ⟨?_, hfits⟩
    simp only [FileStoreIf.perform, methods, Prod.map_fst]
    rcases @readFile_cases digest h filename owner with
      ⟨file, hread, hfile⟩ | ⟨f, hread, hknown⟩
    · rw [hread]
      exact hfits.files _ file hfile
    · rw [hread]
      exact short_thrown hrefused hknown
  | setFingertable front others =>
    have hlist := Wire.fits_of_setFingertableArgs hargs
    simp only [FileStoreIf.perform, methods, Prod.map_fst, Prod.map_snd]
    constructor
    · have hcall := hrpc (front.ip, front.port)
        (.setPredecessor (h.node.keepFingertable digest (front :: others)).toNodeID)
      revert hcall
      cases callRpc _ _ with
      | ok answer => exact fun _ => trivial
      | error t => exact fun hcall => hcall
    · refine ⟨hfits.self, fun x hx => ?_, hfits.files⟩
      obtain ⟨y, hy, rfl⟩ := List.mem_map.mp hx
      exact Wire.nodeID_fits_iff.mpr ⟨short_nodeId _ _, (Wire.nodeID_fits_iff.mp (hlist y hy)).2⟩
  | findSucc key =>
    exact ⟨short_lookup hrefused hrpc (fun _ _ _ => known_isSuccessor) (by decide) _ hfits.self key,
      hfits⟩
  | findPred key =>
    exact ⟨short_lookup hrefused hrpc (fun _ _ _ => known_isPredecessor) (by decide) _ hfits.self
      key, hfits⟩
  | getNodeSucc =>
    refine ⟨?_, hfits⟩
    simp only [FileStoreIf.perform, methods, Prod.map_fst, LocalNode.getSuccessor]
    cases hhead : h.node.fingertable.head? with
    | none => exact short_thrown hrefused (Or.inr ⟨_, by decide, rfl⟩)
    | some x => exact hfits.fingers x (List.mem_of_mem_head? hhead)
  | setPredecessor node => exact ⟨trivial, hfits.self, hfits.fingers, hfits.files⟩

end FileStoreHandler

end Cs457.Chord
