import Cs457.Chord.ThriftTypes

/-!
# Chord — the service

The generated client and processor of `FileStore`: the arguments and results of the seven methods
as structs, a call as a message and its answer as another. The client is the plain one, which
waits for the answer to each call.

* **`FileStoreIf`** — the methods of a handler with a state.
* **`FileStoreProcessor.dispatchCall`** — a message at the server.
* **`FileStoreClient.send`**, **`FileStoreClient.recv`** — a call at the client.
-/

namespace Cs457.Chord

open Reading TaggedStruct

/-! ## Arguments and results -/

structure WriteFileArgs where
  rFile : RFile := {}
  deriving DecidableEq, Repr

structure ReadFileArgs where
  filename : Str := []
  owner : Str := []
  deriving DecidableEq, Repr

structure SetFingertableArgs where
  nodeList : List NodeID := []
  deriving DecidableEq, Repr

/-- Of `findSucc` and `findPred`. -/
structure FindArgs where
  key : Str := []
  deriving DecidableEq, Repr

structure SetPredecessorArgs where
  node : NodeID := ⟨[], [], 0⟩
  deriving DecidableEq, Repr

/-- The result of a method that returns a value. -/
structure Result (α : Type) where
  success : Option α := none
  systemException : Option SystemException := none
  deriving DecidableEq, Repr

structure WriteFileResult where
  systemException : Option SystemException := none
  deriving DecidableEq, Repr

/-- `TApplicationException`. -/
structure TApplicationException where
  message : Str := []
  type : Int32 := 0
  deriving DecidableEq, Repr

variable (P : TProtocol)

namespace Wire

/-- A struct without members. -/
def empty (name : Str) : Struct P Unit where
  name := name
  default := ()
  members := []
  ids := List.nodup_nil
  commute := List.Pairwise.nil
  complete _ := rfl

def writeFileArgs : Struct P WriteFileArgs where
  name := str "FileStore_writeFile_args"
  default := {}
  members := [.struct (rFile P) (str "rFile") 1 (fun a => some a.rFile)
    (fun a f => { a with rFile := f }) (·.rFile)]
  ids := nodup_one
  commute := List.pairwise_singleton _ _
  complete a := congrArg WriteFileArgs.mk ((rFile P).complete a.rFile)

def readFileArgs : Struct P ReadFileArgs where
  name := str "FileStore_readFile_args"
  default := {}
  members :=
    [.string (str "filename") 1 (fun a => some a.filename) fun a s => { a with filename := s },
      .string (str "owner") 2 (fun a => some a.owner) fun a s => { a with owner := s }]
  ids := nodup_two
  commute := List.pairwise_pair.mpr fun _ _ => rfl
  complete _ := rfl

def setFingertableArgs : Struct P SetFingertableArgs where
  name := str "FileStore_setFingertable_args"
  default := {}
  members := [.list (nodeID P) (str "node_list") 1 (fun a => some a.nodeList)
    fun a l => { a with nodeList := l }]
  ids := nodup_one
  commute := List.pairwise_singleton _ _
  complete _ := rfl

def findArgs (name : Str) : Struct P FindArgs where
  name := name
  default := {}
  members := [.string (str "key") 1 (fun a => some a.key) fun a s => { a with key := s }]
  ids := nodup_one
  commute := List.pairwise_singleton _ _
  complete _ := rfl

def setPredecessorArgs : Struct P SetPredecessorArgs where
  name := str "FileStore_setPredecessor_args"
  default := {}
  members := [.struct (nodeID P) (str "node") 1 (fun a => some a.node)
    (fun a x => { a with node := x }) (·.node)]
  ids := nodup_one
  commute := List.pairwise_singleton _ _
  complete _ := rfl

def writeFileResult : Struct P WriteFileResult where
  name := str "FileStore_writeFile_result"
  default := {}
  members := [.struct (systemException P) (str "systemException") 1 (·.systemException)
    (fun r e => { r with systemException := some e }) fun r => r.systemException.getD {}]
  ids := nodup_one
  commute := List.pairwise_singleton _ _
  complete r := by
    rcases r with ⟨_ | e⟩
    · rfl
    · exact congrArg (WriteFileResult.mk <| some ·) ((systemException P).complete e)

variable {P}

def result {α : Type} (name : Str) (s : Struct P α) : Struct P (Result α) where
  name := name
  default := {}
  members :=
    [.struct s (str "success") 0 (·.success) (fun r a => { r with success := some a })
        fun r => r.success.getD s.default,
      .struct (systemException P) (str "systemException") 1 (·.systemException)
        (fun r e => { r with systemException := some e }) fun r => r.systemException.getD {}]
  ids := show [0, 1].Nodup by decide
  commute := by
    rw [List.pairwise_pair]
    rintro ⟨_ | a, _ | e⟩ r <;> rfl
  complete r := by
    rcases r with ⟨_ | a, _ | e⟩
    · rfl
    · exact congrArg (Result.mk none <| some ·) ((systemException P).complete e)
    · exact congrArg (fun a => Result.mk (some a) none) (s.complete a)
    · exact congrArg₂ (fun a e => Result.mk (some a) (some e)) (s.complete a)
        ((systemException P).complete e)

/-- A result is written with its value or else with its exception, not with both. -/
def writeResult {α : Type} (s : Struct P (Result α)) (r : Result α) : List UInt8 :=
  if r.success.isSome then s.write { r with systemException := none } else s.write r

variable (P)

def applicationException : Struct P TApplicationException where
  name := str "TApplicationException"
  default := {}
  members :=
    [.string (str "message") 1 (fun x => some x.message) fun x s => { x with message := s },
      .i32 (str "type") 2 (fun x => some x.type) fun x n => { x with type := n }]
  ids := nodup_two
  commute := List.pairwise_pair.mpr fun _ _ => rfl
  complete _ := rfl

end Wire

/-! ## Calls -/

/-- A call of one of the methods. -/
inductive Request where
  | writeFile (rFile : RFile)
  | readFile (filename owner : Str)
  /-- the list has a first element: that of an empty list is undefined -/
  | setFingertable (front : NodeID) (others : List NodeID)
  | findSucc (key : Str)
  | findPred (key : Str)
  | getNodeSucc
  | setPredecessor (node : NodeID)
  deriving DecidableEq, Repr

/-- What a method returns. -/
inductive Answer where
  | done
  | file (rFile : RFile)
  | node (node : NodeID)
  deriving DecidableEq, Repr

/-- What a handler throws: the declared exception, or another `std::exception`. -/
inductive Thrown where
  | systemException (e : SystemException)
  | exception (what : Str)
  deriving DecidableEq, Repr

/-- `SystemException::what`. -/
def SystemException.what (e : SystemException) : Str :=
  str "TException - service has thrown: SystemException(message=" ++ e.message.getD (str "<null>")
    ++ str ")"

def Thrown.what : Thrown → Str
  | systemException e => e.what
  | exception what => what

structure FileStoreIf (σ : Type) where
  writeFile : RFile → σ → Except Thrown Unit × σ
  readFile : Str → Str → σ → Except Thrown RFile × σ
  setFingertable : NodeID → List NodeID → σ → Except Thrown Unit × σ
  findSucc : Str → σ → Except Thrown NodeID × σ
  findPred : Str → σ → Except Thrown NodeID × σ
  getNodeSucc : σ → Except Thrown NodeID × σ
  setPredecessor : NodeID → σ → Except Thrown Unit × σ

/-- `d_node.set_fingertable` calls `front()`, which an empty list does not have. -/
def FileStoreIf.setFingertable? {σ : Type} (h : FileStoreIf σ) :
    List NodeID → Option (σ → Except Thrown Unit × σ)
  | [] => none
  | front :: others => some (h.setFingertable front others)

def Request.method : Request → Str
  | writeFile _ => str "writeFile"
  | readFile _ _ => str "readFile"
  | setFingertable _ _ => str "setFingertable"
  | findSucc _ => str "findSucc"
  | findPred _ => str "findPred"
  | getNodeSucc => str "getNodeSucc"
  | setPredecessor _ => str "setPredecessor"

def message (name : Str) (type : TMessageType) (seqid : Int32) (body : List UInt8) : List UInt8 :=
  P.writeMessageBegin name type seqid ++ (body ++ P.writeMessageEnd)

/-! ## The processor -/

namespace FileStoreProcessor

/-- `TApplicationException::UNKNOWN`, `UNKNOWN_METHOD` and `MISSING_RESULT`. -/
def unknown : Int32 := 0

def unknownMethod : Int32 := 1

def missingResult : Int32 := 5

variable {P} {σ α β : Type}

/-- The body of a `process_` method. `call` is the handler's method where it is defined, and
`reply` the result for what that returns or throws, or the text of an exception that is not
declared. -/
def process (name : Str) (args : Struct P α) (call : α → Option (σ → Except Thrown β × σ))
    (reply : Except Thrown β → Except Str (List UInt8)) (seqid : Int32) (state : σ) :
    Reader (List UInt8 × σ) := do
  let a ← args.read args.default
  P.readMessageEnd
  let some method := call a | failure
  let (outcome, state) := method state
  match reply outcome with
  | .ok result => return (message P name .reply seqid result, state)
  | .error what => return (message P name .exception seqid
      ((Wire.applicationException P).write { message := what, type := unknown }), state)

/-- The results of the methods that return a value. -/
def replyResult (s : Struct P (Result α)) : Except Thrown α → Except Str (List UInt8)
  | .ok a => .ok (Wire.writeResult s { success := some a })
  | .error (.systemException e) => .ok (Wire.writeResult s { systemException := some e })
  | .error (.exception what) => .error what

/-- The result of `writeFile`. -/
def replyWriteFile : Except Thrown Unit → Except Str (List UInt8)
  | .ok () => .ok ((Wire.writeFileResult P).write {})
  | .error (.systemException e) =>
    .ok ((Wire.writeFileResult P).write { systemException := some e })
  | .error (.exception what) => .error what

/-- The results of the methods that declare no exception. -/
def replyEmpty (name : Str) : Except Thrown Unit → Except Str (List UInt8)
  | .ok () => .ok ((Wire.empty P name).write ())
  | .error thrown => .error thrown.what

def readFileResult : Struct P (Result RFile) :=
  Wire.result (str "FileStore_readFile_result") (Wire.rFile P)

def findSuccResult : Struct P (Result NodeID) :=
  Wire.result (str "FileStore_findSucc_result") (Wire.nodeID P)

def findPredResult : Struct P (Result NodeID) :=
  Wire.result (str "FileStore_findPred_result") (Wire.nodeID P)

def getNodeSuccResult : Struct P (Result NodeID) :=
  Wire.result (str "FileStore_getNodeSucc_result") (Wire.nodeID P)

variable (P)

/-- `processMap_`. -/
def processMap (h : FileStoreIf σ) : List (Str × (Int32 → σ → Reader (List UInt8 × σ))) :=
  [(str "writeFile", process (str "writeFile") (Wire.writeFileArgs P)
      (fun a => some (h.writeFile a.rFile)) (replyWriteFile (P := P))),
    (str "readFile", process (str "readFile") (Wire.readFileArgs P)
      (fun a => some (h.readFile a.filename a.owner)) (replyResult (P := P) readFileResult)),
    (str "setFingertable", process (str "setFingertable") (Wire.setFingertableArgs P)
      (fun a => h.setFingertable? a.nodeList)
      (replyEmpty (P := P) (str "FileStore_setFingertable_result"))),
    (str "findSucc", process (str "findSucc") (Wire.findArgs P (str "FileStore_findSucc_args"))
      (fun a => some (h.findSucc a.key)) (replyResult (P := P) findSuccResult)),
    (str "findPred", process (str "findPred") (Wire.findArgs P (str "FileStore_findPred_args"))
      (fun a => some (h.findPred a.key)) (replyResult (P := P) findPredResult)),
    (str "getNodeSucc", process (str "getNodeSucc")
      (Wire.empty P (str "FileStore_getNodeSucc_args")) (fun _ => some h.getNodeSucc)
      (replyResult (P := P) getNodeSuccResult)),
    (str "setPredecessor", process (str "setPredecessor") (Wire.setPredecessorArgs P)
      (fun a => some (h.setPredecessor a.node))
      (replyEmpty (P := P) (str "FileStore_setPredecessor_result")))]

/-- The answer to a method that the map does not have. -/
def invalidMethod (fname : Str) (seqid : Int32) : List UInt8 :=
  message P fname .exception seqid ((Wire.applicationException P).write
    { message := str "Invalid method name: '" ++ fname ++ str "'", type := unknownMethod })

def dispatchCall (h : FileStoreIf σ) (fname : Str) (seqid : Int32) (state : σ) :
    Reader (List UInt8 × σ) :=
  match (processMap P h).lookup fname with
  | none => do
    P.skip .struct
    P.readMessageEnd
    return (invalidMethod P fname seqid, state)
  | some process => process seqid state

/-- `TDispatchProcessor::process`: any other message ends the connection. -/
def processMessage (h : FileStoreIf σ) (state : σ) : Reader (List UInt8 × σ) := do
  let (fname, mtype, seqid) ← P.readMessageBegin
  if mtype = .call ∨ mtype = .oneway then dispatchCall P h fname seqid state else failure

/-- The messages of a connection, one after the other. -/
def serve (h : FileStoreIf σ) : ℕ → σ → Reader (List UInt8 × σ)
  | 0, state => return ([], state)
  | n + 1, state => do
    let (reply, state) ← processMessage P h state
    let (replies, state) ← serve h n state
    return (reply ++ replies, state)

end FileStoreProcessor

/-! ## The client -/

/-- What a call throws at the client: the declared exception, or one of Thrift. -/
inductive ClientFault where
  | systemException (e : SystemException)
  | application (x : TApplicationException)
  deriving DecidableEq, Repr

namespace FileStoreClient

open FileStoreProcessor (readFileResult findSuccResult findPredResult getNodeSuccResult
  missingResult)

def writeArgs : Request → List UInt8
  | .writeFile rFile => (Wire.writeFileArgs P).write ⟨rFile⟩
  | .readFile filename owner => (Wire.readFileArgs P).write ⟨filename, owner⟩
  | .setFingertable front others => (Wire.setFingertableArgs P).write ⟨front :: others⟩
  | .findSucc key => (Wire.findArgs P (str "FileStore_findSucc_pargs")).write ⟨key⟩
  | .findPred key => (Wire.findArgs P (str "FileStore_findPred_pargs")).write ⟨key⟩
  | .getNodeSucc => (Wire.empty P (str "FileStore_getNodeSucc_pargs")).write ()
  | .setPredecessor node => (Wire.setPredecessorArgs P).write ⟨node⟩

/-- A `send_` method. -/
def send (request : Request) : List UInt8 :=
  message P request.method .call 0 (writeArgs P request)

/-- A `recv_` method. A message that is no answer to the call is skipped, and the result is read
from what follows. -/
def recvResult {α β : Type} (name : Str) (result : Struct P α)
    (finish : α → Except ClientFault β) : Reader (Except ClientFault β) := do
  let (fname, mtype, _) ← P.readMessageBegin
  if mtype = .exception then
    let x ← (Wire.applicationException P).read {}
    P.readMessageEnd
    return .error (.application x)
  if mtype ≠ .reply then
    P.skip .struct
    P.readMessageEnd
  if fname ≠ name then
    P.skip .struct
    P.readMessageEnd
  let r ← result.read result.default
  P.readMessageEnd
  return finish r

/-- What a result with a value means. -/
def finishResult {α : Type} (name : Str) (r : Result α) : Except ClientFault α :=
  match r.success, r.systemException with
  | some a, _ => .ok a
  | none, some e => .error (.systemException e)
  | none, none => .error (.application
      { message := name ++ str " failed: unknown result", type := missingResult })

def finishWriteFile (r : WriteFileResult) : Except ClientFault Unit :=
  match r.systemException with
  | some e => .error (.systemException e)
  | none => .ok ()

def recv (request : Request) : Reader (Except ClientFault Answer) :=
  match request with
  | .writeFile _ => recvResult P request.method (Wire.writeFileResult P) fun r =>
      (finishWriteFile r).map fun _ => .done
  | .readFile _ _ => recvResult P request.method readFileResult fun r =>
      (finishResult request.method r).map .file
  | .setFingertable _ _ => recvResult P request.method
      (Wire.empty P (str "FileStore_setFingertable_presult")) fun _ => .ok .done
  | .findSucc _ => recvResult P request.method findSuccResult fun r =>
      (finishResult request.method r).map .node
  | .findPred _ => recvResult P request.method findPredResult fun r =>
      (finishResult request.method r).map .node
  | .getNodeSucc => recvResult P request.method getNodeSuccResult fun r =>
      (finishResult request.method r).map .node
  | .setPredecessor _ => recvResult P request.method
      (Wire.empty P (str "FileStore_setPredecessor_presult")) fun _ => .ok .done

end FileStoreClient

end Cs457.Chord
