import Cs457.Kv.Replica
import Cs457.Lib.UnorderedMap

/-!
# Key-value store — the coordinator

The handlers of `Coordinator`, as functions from the coordinator before to the coordinator
after and the messages it hands to its channels. What a handler posts to a strand or to the
io_service is queued in the state and runs in a later event, in any order between different
strands. `dispatch` queues as well: running the closure at once is the case in which its
event comes next.
-/

namespace Cs457.Kv

inductive Mode where
  | readRepair
  | hintedHandoff
  | other
  deriving DecidableEq, Repr

/-- `Config`, without the paths of the two logs. -/
structure Config where
  listenIp : String
  listenPort : UInt16
  replicas : List (String × String)
  mode : Mode
  deriving DecidableEq, Repr

/-- The connection of a client. -/
abbrev Client := ℕ

/-- A channel to another server: `m_channels[i]`, or the `k`-th connection accepted. -/
inductive Chan where
  | outgoing (i : ℕ)
  | accepted (k : ℕ)
  deriving DecidableEq, Repr

structure PendingRead where
  stream : UInt32
  key : UInt32
  consistency : UInt32
  requestor : Client
  results : List (Timestamp × String)
  deriving DecidableEq, Repr

structure PendingWrite where
  stream : UInt32
  key : UInt32
  consistency : UInt32
  requestor : Client
  deriving DecidableEq, Repr

/-- The closures of `m_pending_read_strand`. -/
inductive ReadTask where
  | start (msg : GetKey) (requestor : Client) (own : Element)
  | complete (msg : ReadComplete)
  deriving DecidableEq, Repr

/-- The closures of `m_pending_write_strand`. -/
inductive WriteTask where
  | start (msg : PutKey) (requestor : Client) (uuid : String) (stamp : Timestamp)
  | complete (msg : WriteComplete) (sender : ℕ)
  deriving DecidableEq, Repr

/-- The closures of the hint log's strand: a record and what is added to a counter after it
has been flushed. -/
inductive HintTask where
  | update (msg : HintMessage) (replica : ℕ) (key : UInt32) (change : ℤ)
  | replay
  deriving DecidableEq, Repr

/-- What is posted to the io_service itself. -/
inductive IoTask where
  | readRepair (key : UInt32)
  | reconnected (i : ℕ)
  deriving DecidableEq, Repr

inductive Effect where
  | reply (client : Client) (msg : ClientMessage)
  | send (ch : Chan) (msg : ServerMessage)
  | report (text : String)
  deriving DecidableEq, Repr

/-- `introduced k` is the id bound in the handler of the `k`-th accepted channel, none before
its introduction. The `atomic_int_fast32_t`s of `m_hints` are integers here: they have 64 bits
with glibc and change by one for a record of the hint log, so no log is long enough for them to
wrap around. -/
structure Coordinator where
  config : Config
  replica : Replica
  pendingReads : UnorderedMap String PendingRead := ∅
  readStrand : List ReadTask := []
  pendingWrites : UnorderedMap String PendingWrite := ∅
  writeStrand : List WriteTask := []
  hints : ℕ → UInt32 → ℤ := fun _ _ => 0
  hintFile : List UInt8
  hintStrand : List HintTask
  posted : List IoTask := []
  introduced : ℕ → Option ℕ := fun _ => none

/-- `Coordinator::Coordinator` and `start`: both logs are to be replayed, the hint log in
hinted-handoff mode only. -/
def Coordinator.create (config : Config) (file hintFile : List UInt8) : Coordinator where
  config := config
  replica := Replica.create file
  hintFile := hintFile
  hintStrand := if config.mode = .hintedHandoff then [.replay] else []

namespace Coordinator

/-- `m_hints` has three arrays of 256 counters. -/
def hintsSize : ℕ := 3

/-- The same message on every channel of `m_channels`. -/
def broadcast (c : Coordinator) (msg : ServerMessage) : List Effect :=
  (List.range c.config.replicas.length).map fun i => .send (.outgoing i) msg

/-! ## Requests of clients -/

/-- The element that stands for a missing copy. -/
def missing : Element := ⟨"", Timestamp.zero⟩

def handleGet (c : Coordinator) (msg : GetKey) (requestor : Client) :
    Except Fault (Coordinator × List Effect) := do
  let held ← c.replica.read msg.key
  let data := held.getD missing
  -- posted to the io_service, whatever the consistency
  let c := if c.config.mode = .readRepair
    then { c with posted := c.posted ++ [.readRepair msg.key] } else c
  if msg.consistency = 1 then
    return (c, [.reply requestor (.getKeyResp ⟨msg.stream, msg.key, data.data⟩)])
  else return ({ c with readStrand := c.readStrand ++ [.start msg requestor data] }, [])

def handlePut (c : Coordinator) (msg : PutKey) (requestor : Client) (stamp : Timestamp)
    (uuid : String) : Except Fault (Coordinator × List Effect) := do
  let replica ← c.replica.write msg.key msg.val stamp
  -- one AddHint for each counter of `m_hints`, whatever the replicas are
  let added := (List.range hintsSize).map fun i =>
    HintTask.update (.addHint (UInt32.ofNat i) msg.key) i msg.key 1
  return ({ c with
    replica := replica
    hintStrand := c.hintStrand ++ if c.config.mode = .hintedHandoff then added else []
    writeStrand := c.writeStrand ++ [.start msg requestor uuid stamp] }, [])

/-- `client_handler`. -/
def clientHandler (c : Coordinator) (msg : ClientMessage) (requestor : Client)
    (stamp : Timestamp) (uuid : String) : Except Fault (Coordinator × List Effect) :=
  match msg with
  | .getKey msg => c.handleGet msg requestor
  | .putKey msg => c.handlePut msg requestor stamp uuid
  | _ => .ok (c, [.report "Invalid message from client\n"])

/-! ## Messages of other servers -/

def handleReadRepairResponse (c : Coordinator) (msg : ReadRepairResponse) (source : Chan) :
    Except Fault (Coordinator × List Effect) := do
  let held ← c.replica.read msg.key
  match held with
  | some copy =>
    -- the copy lags behind: the response is taken in and passed on to all
    if copy.timestamp < msg.timestamp then do
      let replica ← c.replica.write msg.key msg.val msg.timestamp
      return ({ c with replica := replica },
        c.broadcast (.doWrite ⟨"RR", msg.key, msg.timestamp, msg.val⟩))
    -- the sender lags behind, or has other data with the same stamp
    else if msg.timestamp < copy.timestamp ∨ copy.data ≠ msg.val then
      return (c, [.send source (.doWrite ⟨"RR", msg.key, copy.timestamp, copy.data⟩)])
    else return (c, [])
  | none => do
    let replica ← c.replica.write msg.key msg.val msg.timestamp
    return ({ c with replica := replica },
      c.broadcast (.doWrite ⟨"RR", msg.key, msg.timestamp, msg.val⟩))

def handleReadRepair (c : Coordinator) (msg : ReadRepair) (source : Chan) :
    Except Fault (Coordinator × List Effect) := do
  let held ← c.replica.read msg.key
  let data := held.getD missing
  return (c, [.send source (.readRepairResponse ⟨msg.key, data.timestamp, data.data⟩)])

def handleWriteComplete (c : Coordinator) (msg : WriteComplete) (sender : ℕ) : Coordinator :=
  { c with writeStrand := c.writeStrand ++ [.complete msg sender] }

def handleDoWrite (c : Coordinator) (msg : DoWrite) (sender : ℕ) :
    Except Fault (Coordinator × List Effect) := do
  let replica ← c.replica.write msg.key msg.val msg.timestamp
  let c := { c with replica := replica }
  if msg.uuid ≠ "RR" then
    -- `m_channels[from]` is not the channel that the message came on
    if sender < c.config.replicas.length then
      return (c, [.send (.outgoing sender) (.writeComplete ⟨msg.uuid⟩)])
    else .error .outOfBounds
  else return (c, [])

def handleDoRead (c : Coordinator) (msg : DoRead) (source : Chan) :
    Except Fault (Coordinator × List Effect) := do
  let held ← c.replica.read msg.key
  let data := held.getD missing
  return (c, [.send source (.readComplete ⟨msg.uuid, data.timestamp, data.data⟩)])

def handleReadComplete (c : Coordinator) (msg : ReadComplete) : Coordinator :=
  { c with readStrand := c.readStrand ++ [.complete msg] }

/-- `unintroduced_msg_handler`: the sender is looked up in the list of replicas, its port as
a decimal string. -/
def unintroducedMsgHandler (c : Coordinator) (msg : ServerMessage) (k : ℕ) :
    Except Fault (Coordinator × List Effect) :=
  match msg with
  | .intro intro =>
    match c.config.replicas.findIdx? fun r => r = (intro.ip, toString intro.port.toNat) with
    -- `ptr->handler()` is replaced
    | some id => .ok ({ c with introduced := Function.update c.introduced k (some id) }, [])
    | none => .error (.runtimeError "Invalid introduction")
  | _ => .error (.runtimeError "Replica failed to introduce self")

def serverMsgHandler (c : Coordinator) (msg : ServerMessage) (source : Chan) (id : ℕ) :
    Except Fault (Coordinator × List Effect) :=
  match msg with
  | .intro _ => .error (.runtimeError "Double introduction")
  | .doWrite msg => c.handleDoWrite msg id
  | .writeComplete msg => .ok (c.handleWriteComplete msg id, [])
  | .doRead msg => c.handleDoRead msg source
  | .readComplete msg => .ok (c.handleReadComplete msg, [])
  | .readRepair msg => c.handleReadRepair msg source
  | .readRepairResponse msg => c.handleReadRepairResponse msg source
  | .notSet => .ok (c, [.report "Unknown message type received\n"])

/-- The handler of the channel a message arrives on. -/
def channelHandler (c : Coordinator) (msg : ServerMessage) (source : Chan) :
    Except Fault (Coordinator × List Effect) :=
  match source with
  | .outgoing i => c.serverMsgHandler msg source i
  | .accepted k =>
    match c.introduced k with
    | none => c.unintroducedMsgHandler msg k
    | some id => c.serverMsgHandler msg source id

/-! ## Tasks of the strands -/

/-- The closure of `handle_put`. -/
def startWrite (c : Coordinator) (msg : PutKey) (requestor : Client) (uuid : String)
    (stamp : Timestamp) : Coordinator × List Effect :=
  let pending : PendingWrite := ⟨msg.stream, msg.key, msg.consistency - 1, requestor⟩
  -- `emplace` keeps an entry that is there
  ({ c with pendingWrites := c.pendingWrites.emplace uuid pending },
    (if msg.consistency = 1
      then [.reply requestor (.putKeyResp ⟨msg.stream, msg.key⟩)] else [])
      ++ c.broadcast (.doWrite ⟨uuid, msg.key, stamp, msg.val⟩))

/-- The closure of `handle_write_complete`. -/
def completeWrite (c : Coordinator) (msg : WriteComplete) (sender : ℕ) :
    Except Fault (Coordinator × List Effect) :=
  match c.pendingWrites.lookup msg.uuid with
  -- `at` throws
  | none => .error .outOfRange
  | some pending =>
    .ok ({ c with
        pendingWrites := c.pendingWrites.insert msg.uuid
          { pending with consistency := pending.consistency - 1 }
        hintStrand := c.hintStrand ++ if c.config.mode = .hintedHandoff
          then [.update (.dropHint (UInt32.ofNat sender) pending.key) sender pending.key (-1)]
          else [] },
      -- compared before it goes down
      if pending.consistency = 1
        then [.reply pending.requestor (.putKeyResp ⟨pending.stream, pending.key⟩)] else [])

def performWrite (c : Coordinator) : WriteTask → Except Fault (Coordinator × List Effect)
  | .start msg requestor uuid stamp => .ok (c.startWrite msg requestor uuid stamp)
  | .complete msg sender => c.completeWrite msg sender

/-- The closure of `handle_get`, with the uuid it draws. -/
def startRead (c : Coordinator) (msg : GetKey) (requestor : Client) (own : Element)
    (uuid : String) : Coordinator × List Effect :=
  let pending : PendingRead :=
    ⟨msg.stream, msg.key, msg.consistency - 1, requestor, [(own.timestamp, own.data)]⟩
  ({ c with pendingReads := c.pendingReads.emplace uuid pending },
    c.broadcast (.doRead ⟨uuid, msg.key⟩))

/-- The loop over `pending.results`, from the first result. -/
def newest (results : List (Timestamp × String)) : Option (Timestamp × String) :=
  match results with
  | [] => none
  | front :: rest => some ((front :: rest).foldl
      (fun result x => if result.1 < x.1 then x else result) front)

/-- The closure of `handle_read_complete`. -/
def completeRead (c : Coordinator) (msg : ReadComplete) :
    Except Fault (Coordinator × List Effect) :=
  match c.pendingReads.lookup msg.uuid with
  | none => .error .outOfRange
  | some pending =>
    -- the response itself is not added to `pending.results`
    let rest := { pending with consistency := pending.consistency - 1 }
    let c := { c with pendingReads := c.pendingReads.insert msg.uuid rest }
    if pending.consistency = 1 then
      match newest pending.results with
      -- `front()` of an empty vector
      | none => .error .outOfBounds
      | some result => .ok (c, [.reply pending.requestor
          (.getKeyResp ⟨pending.stream, pending.key, result.2⟩)])
    else .ok (c, [])

def performRead (c : Coordinator) (uuid : String) :
    ReadTask → Except Fault (Coordinator × List Effect)
  | .start msg requestor own => .ok (c.startRead msg requestor own uuid)
  | .complete msg => c.completeRead msg

/-- `m_hints[replica][key] += change`. -/
def addHints (c : Coordinator) (replica : ℕ) (key : UInt32) (change : ℤ) :
    Except Fault Coordinator :=
  if replica < hintsSize ∧ key < 256 then
    .ok { c with hints := fun i k =>
      if i = replica ∧ k = key then c.hints i k + change else c.hints i k }
  else .error .outOfBounds

/-- The handler that `start` gives to the replay of the hint log. -/
def replayHint (c : Coordinator) (msg : HintMessage) : Except Fault Coordinator :=
  match msg with
  | .addHint replica key => c.addHints replica.toNat key 1
  | .dropHint replica key => c.addHints replica.toNat key (-1)
  | .notSet => .ok c

def performHint (codec : Codec HintMessage) (c : Coordinator) :
    HintTask → Except Fault Coordinator
  | .update msg replica key change =>
    -- the counter changes after the record has been flushed
    { c with hintFile := c.hintFile ++ Log.record codec msg }.addHints replica key change
  | .replay => (Log.replay codec c.hintFile).foldlM replayHint c

/-- The hinted keys of a replica, as the reconnect handler sends them. -/
def hintedWrites (c : Coordinator) (i : ℕ) : List Effect :=
  (List.range 256).filterMap fun k =>
    -- a counter below zero is as good as one above
    if c.hints i (UInt32.ofNat k) = 0 then none
    else (c.replica.store (UInt32.ofNat k)).map fun data =>
      .send (.outgoing i) (.doWrite ⟨"RR", UInt32.ofNat k, data.timestamp, data.data⟩)

/-- `recon_handler`. -/
def reconHandler (c : Coordinator) (i : ℕ) : Except Fault (Coordinator × List Effect) :=
  let introduction := Effect.send (.outgoing i)
    (.intro ⟨c.config.listenIp, c.config.listenPort.toUInt32⟩)
  if c.config.mode = .hintedHandoff then
    if i < hintsSize then .ok (c, introduction :: c.hintedWrites i) else .error .outOfBounds
  else .ok (c, [introduction])

def performIo (c : Coordinator) : IoTask → Except Fault (Coordinator × List Effect)
  | .readRepair key => .ok (c, c.broadcast (.readRepair ⟨key⟩))
  | .reconnected i => c.reconHandler i

/-! ## Events -/

/-- The codecs of the two logs. -/
structure Codecs where
  replica : Codec DoWrite
  hints : Codec HintMessage

inductive Event where
  /-- a message of a client, with the clock and the uuid that a put reads -/
  | client (requestor : Client) (msg : ClientMessage) (stamp : Timestamp) (uuid : String)
  /-- a message of another server -/
  | server (source : Chan) (msg : ServerMessage)
  /-- a connect of `m_channels[i]` completes -/
  | connected (i : ℕ)
  | runLog
  | runHint
  | runWrite
  /-- the next task of the read strand, with the uuid that the start of a read draws -/
  | runRead (uuid : String)
  /-- a task posted to the io_service -/
  | runPosted (n : ℕ)
  deriving DecidableEq, Repr

/-- What an event does. -/
def handle (codecs : Codecs) (c : Coordinator) : Event → Option (Coordinator × List Effect)
  -- an exception leaves the io_service and ends the server: no step
  | .client requestor msg stamp uuid => (c.clientHandler msg requestor stamp uuid).toOption
  | .server source msg => (c.channelHandler msg source).toOption
  | .connected i => some ({ c with posted := c.posted ++ [.reconnected i] }, [])
  | .runLog => (c.replica.runTask codecs.replica).map fun r => ({ c with replica := r }, [])
  | .runHint => match c.hintStrand with
    | [] => none
    | t :: rest => ({ c with hintStrand := rest }.performHint codecs.hints t).toOption.map
        fun c => (c, [])
  | .runWrite => match c.writeStrand with
    | [] => none
    | t :: rest => ({ c with writeStrand := rest }.performWrite t).toOption
  | .runRead uuid => match c.readStrand with
    | [] => none
    | t :: rest => ({ c with readStrand := rest }.performRead uuid t).toOption
  | .runPosted n => match c.posted[n]? with
    | none => none
    | some t => ({ c with posted := c.posted.eraseIdx n }.performIo t).toOption

/-- The step relation of a coordinator in an arbitrary environment. -/
def step (codecs : Codecs) (c : Coordinator) (ev : Event) : Option Coordinator :=
  (c.handle codecs ev).map Prod.fst

/-- A counter that has gone down once more. -/
theorem sub_ofNat_succ (x : UInt32) (n : ℕ) :
    x - UInt32.ofNat (n + 1) = x - UInt32.ofNat n - 1 := by
  rw [UInt32.ofNat_add, show UInt32.ofNat 1 = 1 from rfl]
  grind

end Coordinator

end Cs457.Kv
