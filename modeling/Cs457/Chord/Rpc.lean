import Cs457.Chord.Service

/-!
# Chord — remote calls

A call that is marshalled, handled and answered has at the client the outcome that it has at the
handler, whatever the order in which the client puts its arguments.

* **`reads_dispatchCall`** — the server reads the arguments of a call and calls the handler.
* **`reads_recv`** — the client reads the outcome out of the answer.
-/

namespace Cs457.Chord

open Reading TaggedStruct
open FileStoreProcessor FileStoreClient

variable {P : TProtocol} {σ α β : Type}

/-! ## The calls of a handler -/

/-- The outcome of a call, and the state after it. -/
def FileStoreIf.perform (h : FileStoreIf σ) : Request → σ → Except Thrown Answer × σ
  | .writeFile rFile, s => (h.writeFile rFile s).map (Except.map fun _ => .done) id
  | .readFile filename owner, s => (h.readFile filename owner s).map (Except.map .file) id
  | .setFingertable front others, s =>
    (h.setFingertable front others s).map (Except.map fun _ => .done) id
  | .findSucc key, s => (h.findSucc key s).map (Except.map .node) id
  | .findPred key, s => (h.findPred key s).map (Except.map .node) id
  | .getNodeSucc, s => (h.getNodeSucc s).map (Except.map .node) id
  | .setPredecessor node, s => (h.setPredecessor node s).map (Except.map fun _ => .done) id

namespace Request

/-- The methods that declare `SystemException`. -/
def declares : Request → Bool
  | setFingertable _ _ => false
  | setPredecessor _ => false
  | _ => true

/-- The bytes that the server reads as the arguments of a call. A member that does not come keeps
its default, and one that comes again is read again. -/
def ReadAsArgs (P : TProtocol) (request : Request) (args : List UInt8) : Prop :=
  match request with
  | writeFile rFile => Reads ((Wire.writeFileArgs P).read {}) args ⟨rFile⟩
  | readFile filename owner => Reads ((Wire.readFileArgs P).read {}) args ⟨filename, owner⟩
  | setFingertable front others =>
    Reads ((Wire.setFingertableArgs P).read {}) args ⟨front :: others⟩
  | findSucc key => Reads ((Wire.findArgs P (str "FileStore_findSucc_args")).read {}) args ⟨key⟩
  | findPred key => Reads ((Wire.findArgs P (str "FileStore_findPred_args")).read {}) args ⟨key⟩
  | getNodeSucc => Reads ((Wire.empty P (str "FileStore_getNodeSucc_args")).read ()) args ()
  | setPredecessor node => Reads ((Wire.setPredecessorArgs P).read {}) args ⟨node⟩

end Request

/-- An outcome fits the wire. -/
def OutcomeFits (P : TProtocol) : Except Thrown Answer → Prop
  | .ok .done => True
  | .ok (.file rFile) => (Wire.rFile P).Fits rFile
  | .ok (.node node) => (Wire.nodeID P).Fits node
  | .error thrown => Short thrown.what

/-- What the client of a call sees of its outcome: an exception that the method does not declare
comes as one of Thrift, with its text. -/
def seen (request : Request) : Except Thrown Answer → Except ClientFault Answer
  | .ok answer => .ok answer
  | .error (.systemException e) =>
    if request.declares then .error (.systemException e)
    else .error (.application { message := e.what, type := unknown })
  | .error (.exception what) => .error (.application { message := what, type := unknown })

/-! ## The server -/

/-- The answer that `process` writes. -/
def respond (P : TProtocol) (name : Str) (reply : Except Thrown β → Except Str (List UInt8))
    (seqid : Int32) (outcome : Except Thrown β) : List UInt8 :=
  match reply outcome with
  | .ok result => message P name .reply seqid result
  | .error what => message P name .exception seqid
      ((Wire.applicationException P).write { message := what, type := unknown })

/-- A call whose arguments are read is answered by the method. -/
theorem reads_process {name : Str} {args : Struct P α} {a : α} {bytes : List UInt8}
    (h : Reads (args.read args.default) bytes a) (call : α → Option (σ → Except Thrown β × σ))
    {method : σ → Except Thrown β × σ} (hcall : call a = some method)
    (reply : Except Thrown β → Except Str (List UInt8)) (seqid : Int32) (state : σ) :
    Reads (process name args call reply seqid state) (bytes ++ P.writeMessageEnd)
      (respond P name reply seqid (method state).1, (method state).2) := by
  apply h.bind
  simp only [hcall]
  rcases method state with ⟨outcome, state'⟩
  simp only [respond]
  cases reply outcome with
  | ok result => exact P.reads_messageEnd.bind_pure
  | error what => exact P.reads_messageEnd.bind_pure

/-- The answer to a call. -/
def replyOf (P : TProtocol) (h : FileStoreIf σ) (seqid : Int32) :
    Request → σ → List UInt8
  | .writeFile rFile, s =>
    respond P (str "writeFile") (replyWriteFile (P := P)) seqid (h.writeFile rFile s).1
  | .readFile filename owner, s => respond P (str "readFile") (replyResult (P := P) readFileResult)
      seqid (h.readFile filename owner s).1
  | .setFingertable front others, s => respond P (str "setFingertable")
      (replyEmpty (P := P) (str "FileStore_setFingertable_result")) seqid
      (h.setFingertable front others s).1
  | .findSucc key, s => respond P (str "findSucc") (replyResult (P := P) findSuccResult) seqid
      (h.findSucc key s).1
  | .findPred key, s => respond P (str "findPred") (replyResult (P := P) findPredResult) seqid
      (h.findPred key s).1
  | .getNodeSucc, s => respond P (str "getNodeSucc") (replyResult (P := P) getNodeSuccResult) seqid
      (h.getNodeSucc s).1
  | .setPredecessor node, s => respond P (str "setPredecessor")
      (replyEmpty (P := P) (str "FileStore_setPredecessor_result")) seqid
      (h.setPredecessor node s).1

/-- **The server handles a call.** It takes the arguments from whatever reads as them. -/
theorem reads_dispatchCall (h : FileStoreIf σ) {request : Request} {args : List UInt8}
    (hargs : request.ReadAsArgs P args) (seqid : Int32) (state : σ) :
    Reads (dispatchCall P h request.method seqid state) (args ++ P.writeMessageEnd)
      (replyOf P h seqid request state, (h.perform request state).2) := by
  cases request with
  | writeFile rFile =>
    exact reads_process hargs (fun a => some (h.writeFile a.rFile)) rfl replyWriteFile seqid state
  | readFile filename owner =>
    exact reads_process hargs (fun a => some (h.readFile a.filename a.owner)) rfl
      (replyResult readFileResult) seqid state
  | setFingertable front others =>
    exact reads_process hargs (fun a => h.setFingertable? a.nodeList) rfl
      (replyEmpty (str "FileStore_setFingertable_result")) seqid state
  | findSucc key =>
    exact reads_process hargs (fun a => some (h.findSucc a.key)) rfl (replyResult findSuccResult)
      seqid state
  | findPred key =>
    exact reads_process hargs (fun a => some (h.findPred a.key)) rfl (replyResult findPredResult)
      seqid state
  | getNodeSucc =>
    exact reads_process hargs (fun _ => some h.getNodeSucc) rfl (replyResult getNodeSuccResult)
      seqid state
  | setPredecessor node =>
    exact reads_process hargs (fun a => some (h.setPredecessor a.node)) rfl
      (replyEmpty (str "FileStore_setPredecessor_result")) seqid state

/-! ## The client -/

/-- A reply that encodes a result is received as that result. -/
theorem reads_recvResult_reply {name : Str} (hname : Short name) {result : Struct P α} {r : α}
    {bytes : List UInt8} (h : result.Encodes r bytes) (finish : α → Except ClientFault β)
    (seqid : Int32) :
    Reads (recvResult P name result finish) (message P name .reply seqid bytes) (finish r) := by
  apply (P.reads_messageBegin name .reply seqid hname).bind
  simp only [reduceCtorEq, if_false, ne_eq, not_true_eq_false]
  apply h.reads_default.bind
  exact P.reads_messageEnd.bind_pure

theorem applicationException_fits_iff {x : TApplicationException} :
    (Wire.applicationException P).Fits x ↔ Short x.message := by
  simp only [Struct.Fits, Wire.applicationException, List.forall_mem_cons, Wire.string_fits,
    List.not_mem_nil, IsEmpty.forall_iff, implies_true, and_true, Option.mem_def,
    Option.some.injEq, forall_eq']
  exact ⟨fun h => h.1, fun h => ⟨h, fun _ _ => trivial⟩⟩

/-- An exception message is received as that exception. -/
theorem reads_recvResult_exception {name : Str} (hname : Short name) {result : Struct P α}
    {x : TApplicationException} (hx : Short x.message) (finish : α → Except ClientFault β)
    (seqid : Int32) :
    Reads (recvResult P name result finish)
      (message P name .exception seqid ((Wire.applicationException P).write x))
      (.error (.application x)) := by
  apply (P.reads_messageBegin name .exception seqid hname).bind
  simp only [if_true]
  have hread := (Wire.applicationException P).encodes_write (applicationException_fits_iff.mpr hx)
  apply hread.reads_default.bind
  exact P.reads_messageEnd.bind_pure

/-- A result fits when its value and its exception do. -/
theorem result_fits_iff {name : Str} {s : Struct P α} {r : Result α} :
    (Wire.result name s).Fits r ↔
      (∀ a ∈ r.success, s.Fits a) ∧ ∀ e ∈ r.systemException, (Wire.systemException P).Fits e := by
  simp only [Struct.Fits, Wire.result, List.forall_mem_cons, List.not_mem_nil,
    IsEmpty.forall_iff, implies_true, and_true]
  exact Iff.rfl

/-- The text of an exception holds its message. -/
theorem systemException_fits {e : SystemException} (h : Short e.what) :
    (Wire.systemException P).Fits e := by
  refine Wire.systemException_fits_iff.mpr fun s hs => ?_
  have hwhat : e.what = str "TException - service has thrown: SystemException(message=" ++ s
      ++ str ")" := by
    rw [SystemException.what, Option.mem_def.mp hs, Option.getD_some]
  rw [Short, hwhat, List.length_append, List.length_append] at h
  rw [Short]
  omega

/-- An answer with a value or an exception. -/
theorem reads_recv_result {name resultName : Str} (hname : Short name) {s : Struct P α}
    (wrap : α → Answer) {request : Request} (hdeclares : request.declares = true)
    (hwrap : ∀ a, OutcomeFits P (.ok (wrap a)) → s.Fits a) (outcome : Except Thrown α)
    (hfits : OutcomeFits P (outcome.map wrap)) (seqid : Int32) :
    Reads (recvResult P name (Wire.result resultName s) fun r => (finishResult name r).map wrap)
      (respond P name (replyResult (Wire.result resultName s)) seqid outcome)
      (seen request (outcome.map wrap)) := by
  cases outcome with
  | ok a =>
    exact reads_recvResult_reply hname (Struct.encodes_write (result_fits_iff.mpr
      ⟨fun b hb => Option.some.inj hb ▸ hwrap a hfits, fun e he => (by cases he)⟩)) _ seqid
  | error t =>
    have ht : Short t.what := hfits
    cases t with
    | systemException e =>
      have hseen : seen request (Except.map wrap (.error (.systemException e)))
          = .error (.systemException e) := by
        rw [Except.map, seen, if_pos hdeclares]
      rw [hseen]
      exact reads_recvResult_reply hname (Struct.encodes_write (result_fits_iff.mpr
        ⟨fun a ha => (by cases ha), fun e' he => Option.some.inj he ▸ systemException_fits ht⟩))
        _ seqid
    | exception what =>
      exact reads_recvResult_exception (x := { message := what, type := unknown }) hname ht _ seqid

/-- An answer without members, of a method that declares no exception. -/
theorem reads_recv_empty {name resultName presultName : Str} (hname : Short name)
    {request : Request} (hdeclares : request.declares = false) (outcome : Except Thrown Unit)
    (hfits : OutcomeFits P (outcome.map fun _ => .done)) (seqid : Int32) :
    Reads (recvResult P name (Wire.empty P presultName) fun _ => .ok Answer.done)
      (respond P name (replyEmpty (P := P) resultName) seqid outcome)
      (seen request (outcome.map fun _ => .done)) := by
  cases outcome with
  | ok a =>
    -- the two structs differ in their names only
    have hempty : (Wire.empty P presultName).Encodes () ((Wire.empty P resultName).write ()) :=
      ⟨resultName, [], rfl, List.Perm.refl [], fun f hf => (by cases hf)⟩
    exact reads_recvResult_reply hname hempty (fun _ => .ok Answer.done) seqid
  | error t =>
    have ht : Short t.what := hfits
    have hread : Reads (recvResult P name (Wire.empty P presultName) fun _ => .ok Answer.done)
        (message P name .exception seqid
          ((Wire.applicationException P).write { message := t.what, type := unknown }))
        (.error (.application { message := t.what, type := unknown })) :=
      reads_recvResult_exception hname ht _ seqid
    cases t with
    | systemException e =>
      have hseen : seen request (Except.map (fun _ : Unit => .done) (.error (.systemException e)))
          = .error (.application { message := e.what, type := unknown }) := by
        rw [Except.map, seen, if_neg (by simp [hdeclares])]
      rw [hseen]
      exact hread
    | exception what => exact hread

/-- What a write answers is received: nothing, or the exception that it declares. -/
theorem reads_recv_writeFile {name : Str} (hname : Short name) {request : Request}
    (hdeclares : request.declares = true) (outcome : Except Thrown Unit)
    (hfits : OutcomeFits P (outcome.map fun _ => .done)) (seqid : Int32) :
    Reads (recvResult P name (Wire.writeFileResult P) fun r =>
        (finishWriteFile r).map fun _ => Answer.done)
      (respond P name (replyWriteFile (P := P)) seqid outcome)
      (seen request (outcome.map fun _ => .done)) := by
  -- `writeFile` declares `SystemException`, which has a field of its own in the result; anything
  -- else goes out as a TApplicationException.
  cases outcome with
  | ok a =>
    have hfits : (Wire.writeFileResult P).Fits {} := by
      intro m hm
      rw [List.mem_singleton.mp hm]
      exact fun e he => (by cases he)
    exact reads_recvResult_reply hname (Struct.encodes_write hfits) _ seqid
  | error t =>
    have ht : Short t.what := hfits
    cases t with
    | systemException e =>
      have hseen : seen request (Except.map (fun _ : Unit => .done) (.error (.systemException e)))
          = .error (.systemException e) := by
        rw [Except.map, seen, if_pos hdeclares]
      have hfits : (Wire.writeFileResult P).Fits { systemException := some e } := by
        intro m hm
        rw [List.mem_singleton.mp hm]
        exact fun e' he => Option.some.inj he ▸ systemException_fits ht
      rw [hseen]
      exact reads_recvResult_reply hname (Struct.encodes_write hfits) _ seqid
    | exception what =>
      exact reads_recvResult_exception (x := { message := what, type := unknown }) hname ht _ seqid

theorem short_method (request : Request) : Short request.method := by
  have hlen : request.method.length ≤ 14 := by
    cases request <;> simp only [Request.method] <;> decide
  rw [Short]
  omega

/-- **The client reads the outcome of its call.** -/
theorem reads_recv (h : FileStoreIf σ) (request : Request) (state : σ)
    (hfits : OutcomeFits P (h.perform request state).1) (seqid : Int32) :
    Reads (recv P request) (replyOf P h seqid request state)
      (seen request (h.perform request state).1) := by
  have hname := short_method request
  cases request with
  | writeFile rFile => exact reads_recv_writeFile hname rfl _ hfits seqid
  | readFile filename owner =>
    exact reads_recv_result hname .file rfl (fun _ h => h) _ hfits seqid
  | setFingertable front others => exact reads_recv_empty hname rfl _ hfits seqid
  | findSucc key => exact reads_recv_result hname .node rfl (fun _ h => h) _ hfits seqid
  | findPred key => exact reads_recv_result hname .node rfl (fun _ h => h) _ hfits seqid
  | getNodeSucc => exact reads_recv_result hname .node rfl (fun _ h => h) _ hfits seqid
  | setPredecessor node => exact reads_recv_empty hname rfl _ hfits seqid

/-! ## The state of a handler -/

/-- `I` is kept by the calls that come over the wire, and what they return fits it. -/
structure Keeps (P : TProtocol) (h : FileStoreIf σ) (I : σ → Prop) : Prop where
  step : ∀ request args s, Request.ReadAsArgs P request args → I s →
    OutcomeFits P (h.perform request s).1 ∧ I (h.perform request s).2

end Cs457.Chord
