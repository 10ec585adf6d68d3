import Cs457.Chord.Handler

/-!
# Chord — connections

The server takes the messages of a connection one after the other and answers each of them with
one message. A lookup that is forwarded goes over one connection after the other.

* **`connection_served`** — a connection.
* **`exchange_eq`** — one call, from the client's end.
* **`remoteFind_eq`** — a lookup that is forwarded over connections is that of `find`.
-/

namespace Cs457.Chord

open Reading TaggedStruct
open FileStoreProcessor FileStoreClient

variable {P : TProtocol} {σ : Type}

/-! ## A connection -/

/-- A message of a client: the call of a method, with any bytes that the server reads as arguments,
or something the server does not have a method for but can skip. The client chooses the number. -/
structure Incoming (P : TProtocol) where
  method : Str
  type : TMessageType
  seqid : Int32
  args : List UInt8
  request : Option Request
  short : Short method
  is_call : type = .call ∨ type = .oneway
  understood : match request with
    | some request => method = request.method ∧ request.ReadAsArgs P args
    | none => (∀ request : Request, method ≠ request.method) ∧ Reads (P.skip .struct) args ()

/-- The bytes of a message. -/
def Incoming.bytes (m : Incoming P) : List UInt8 := message P m.method m.type m.seqid m.args

/-- **What a client may rely on.** Every message is answered by one of its own: the client of a
call reads in it what the handler has done with the calls before it, and one that is no call is
refused and leaves the handler alone. -/
inductive Conversation (P : TProtocol) (h : FileStoreIf σ) :
    σ → List (Incoming P) → List (List UInt8) → σ → Prop
  | nil {s : σ} : Conversation P h s [] [] s
  | call {s s' : σ} {m : Incoming P} {request : Request} {reply tail : List UInt8}
      {type : TMessageType} {ms : List (Incoming P)} {replies : List (List UInt8)}
      (hrequest : m.request = some request)
      (hreads : Reads (recv P request) reply (seen request (h.perform request s).1))
      (hheader : reply = P.writeMessageBegin m.method type m.seqid ++ tail)
      (hrest : Conversation P h (h.perform request s).2 ms replies s') :
      Conversation P h s (m :: ms) (reply :: replies) s'
  | refused {s s' : σ} {m : Incoming P} {ms : List (Incoming P)} {replies : List (List UInt8)}
      (hrequest : m.request = none) (hrest : Conversation P h s ms replies s') :
      Conversation P h s (m :: ms) (invalidMethod P m.method m.seqid :: replies) s'

/-- A name that is no method of the interface is not in the map. -/
theorem lookup_processMap (h : FileStoreIf σ) {fname : Str}
    (hnone : ∀ request : Request, fname ≠ request.method) :
    (processMap P h).lookup fname = none := by
  rw [List.lookup_eq_none_iff]
  intro entry hentry
  simp only [processMap, List.mem_cons, List.not_mem_nil, or_false] at hentry
  apply bne_iff_ne.mpr
  rcases hentry with rfl | rfl | rfl | rfl | rfl | rfl | rfl
  · exact hnone (.writeFile {})
  · exact hnone (.readFile [] [])
  · exact hnone (.setFingertable ⟨[], [], 0⟩ [])
  · exact hnone (.findSucc [])
  · exact hnone (.findPred [])
  · exact hnone .getNodeSucc
  · exact hnone (.setPredecessor ⟨[], [], 0⟩)

/-- **The server takes one message** off the connection, and what it does is up to the method. -/
theorem reads_processMessage (h : FileStoreIf σ) (m : Incoming P) (state : σ) :
    Reads (processMessage P h state) m.bytes (match m.request with
      | some request => (replyOf P h m.seqid request state, (h.perform request state).2)
      | none => (invalidMethod P m.method m.seqid, state)) := by
  apply (P.reads_messageBegin m.method m.type m.seqid m.short).bind
  simp only [if_pos m.is_call]
  have hunderstood := m.understood
  cases hrequest : m.request with
  | some request =>
    rw [hrequest] at hunderstood
    obtain ⟨hmethod, hargs⟩ := hunderstood
    rw [hmethod]
    exact reads_dispatchCall h hargs m.seqid state
  | none =>
    rw [hrequest] at hunderstood
    obtain ⟨hnone, hskip⟩ := hunderstood
    rw [dispatchCall, lookup_processMap h hnone]
    apply hskip.bind
    exact P.reads_messageEnd.bind_pure

/-- Every reply repeats the method and the sequence number of its call. -/
theorem replyOf_header (h : FileStoreIf σ) (seqid : Int32) (request : Request) (state : σ) :
    ∃ type tail, replyOf P h seqid request state
      = P.writeMessageBegin request.method type seqid ++ tail := by
  have hrespond : ∀ {β : Type} (name : Str) (reply : Except Thrown β → Except Str (List UInt8))
      (outcome : Except Thrown β), ∃ type tail, respond P name reply seqid outcome
        = P.writeMessageBegin name type seqid ++ tail := by
    intro β name reply outcome
    unfold respond
    split
    · exact ⟨_, _, rfl⟩
    · exact ⟨_, _, rfl⟩
  cases request <;> exact hrespond _ _ _

/-- **A connection.** Whatever stream of messages a client sends, the server takes it apart at
their ends and answers each of them in turn. Induction on the messages. -/
theorem connection_served (h : FileStoreIf σ) {I : σ → Prop} (hI : Keeps P h I)
    (ms : List (Incoming P)) {s : σ} (hs : I s) :
    ∃ replies s', Reads (serve P h ms.length s) (ms.flatMap Incoming.bytes) (replies.flatten, s') ∧
      Conversation P h s ms replies s' ∧ I s' := by
  induction ms generalizing s with
  | nil => exact ⟨[], s, Reads.pure ([], s), .nil, hs⟩
  | cons m ms ih =>
    have hone := reads_processMessage h m s
    have hunderstood := m.understood
    cases hrequest : m.request with
    -- A call of the interface: the reply is read back whole, whatever the method answers.
    | some request =>
      rw [hrequest] at hone hunderstood
      obtain ⟨hfits, hnext⟩ := hI.step request m.args s hunderstood.2 hs
      obtain ⟨replies, s', hserve, hconv, hlast⟩ := ih hnext
      obtain ⟨type, tail, hheader⟩ := replyOf_header (P := P) h m.seqid request s
      refine ⟨replyOf P h m.seqid request s :: replies, s', ?_, .call hrequest
        (reads_recv h request s hfits m.seqid) (hunderstood.1 ▸ hheader) hconv, hlast⟩
      rw [List.flatMap_cons, List.flatten_cons]
      apply hone.bind
      exact hserve.bind_pure
    -- An unknown method: the exception of `dispatchCall`, and the handler is not touched.
    | none =>
      rw [hrequest] at hone
      obtain ⟨replies, s', hserve, hconv, hlast⟩ := ih hs
      refine ⟨invalidMethod P m.method m.seqid :: replies, s', ?_, .refused hrequest hconv, hlast⟩
      rw [List.flatMap_cons, List.flatten_cons]
      apply hone.bind
      exact hserve.bind_pure

/-- The arguments of a read without a filename: the owner comes twice, and behind it a number that
nobody knows. -/
def foreignFields : List TProtocol.Field :=
  [⟨str "owner", .string, 2, binaryProtocol.writeString (str "eve")⟩,
    ⟨str "owner", .string, 2, binaryProtocol.writeString (str "bob")⟩,
    ⟨str "offset", .i32, 3, binaryProtocol.writeI32 0⟩]

/-- The later owner overwrites the earlier one. -/
theorem reads_foreignFields : Reads ((Wire.readFileArgs binaryProtocol).read {})
    (binaryProtocol.writeStruct [] foreignFields) ⟨[], str "bob"⟩ := by
  have howner : ∀ owner, Short owner → ∀ r : ReadFileArgs,
      Reads (do return { r with owner := ← binaryProtocol.readString })
        (binaryProtocol.writeString owner)
        { r with owner := (binaryProtocol.writeString owner).drop 4 } := by
    intro owner h r
    have hdrop : (binaryProtocol.writeString owner).drop 4 = owner :=
      List.drop_left' (BigEndian.length_toBytes 4 owner.length)
    rw [hdrop]
    exact (binaryProtocol.reads_string owner h).bind_pure
  have hread : Reads ((Wire.readFileArgs binaryProtocol).read {})
      (binaryProtocol.writeStruct [] foreignFields) (foreignFields.foldl
        (fun r f => if f.id = 2 then { r with owner := f.value.drop 4 } else r) {}) := by
    apply Struct.reads_fields
    simp only [foreignFields, List.forall_mem_cons]
    exact ⟨howner _ (by decide), howner _ (by decide), ⟨by decide, fun rest => rfl, fun r => rfl⟩,
      by simp⟩
  have hlast : foreignFields.foldl (fun r f => if f.id = 2 then { r with owner := f.value.drop 4 }
      else r) ({} : ReadFileArgs) = ⟨[], str "bob"⟩ := by decide +kernel
  rwa [hlast] at hread

/-- A read of a file of `bob`. -/
def foreignRead : Incoming binaryProtocol where
  method := str "readFile"
  type := .call
  seqid := 7
  args := binaryProtocol.writeStruct [] foreignFields
  request := some (.readFile [] (str "bob"))
  short := by decide
  is_call := Or.inl rfl
  understood := ⟨rfl, reads_foreignFields⟩

/-- A method of a later version. -/
def foreignMethod : Incoming binaryProtocol where
  method := str "listFiles"
  type := .call
  seqid := 8
  args := binaryProtocol.writeStruct [] []
  request := none
  short := by decide
  is_call := Or.inl rfl
  understood := by
    refine ⟨fun request => ?_, fun rest => rfl⟩
    cases request <;> simp only [Request.method] <;> decide

/-- Both on one connection to a server that is alone. -/
theorem connection_served_alone : ∃ replies s',
    Reads (serve binaryProtocol (FileStoreHandler.methods FileStoreHandler.noteDigest []
        fun _ _ => .error (.exception [])) [foreignMethod, foreignRead].length
        FileStoreHandler.aloneHandler)
      ([foreignMethod, foreignRead].flatMap Incoming.bytes) (replies.flatten, s') ∧
    Conversation binaryProtocol (FileStoreHandler.methods FileStoreHandler.noteDigest []
        fun _ _ => .error (.exception [])) FileStoreHandler.aloneHandler
      [foreignMethod, foreignRead] replies s' ∧
    FileStoreHandler.Fits binaryProtocol s' := by
  refine connection_served _ (FileStoreHandler.keeps (by decide) fun _ _ => ?_) _ ⟨?_, ?_, ?_⟩
  · exact show Short [] by decide
  · exact Wire.nodeID_fits_iff.mpr ⟨FileStoreHandler.short_nodeId _ _, by decide⟩
  · exact fun x hx => (by cases hx)
  · exact fun id file hfile => (by cases hfile)

/-! ## One call -/

/-- What fits the wire. -/
def Request.Fits (P : TProtocol) : Request → Prop
  | writeFile rFile => (Wire.rFile P).Fits rFile
  | readFile filename owner => Short filename ∧ Short owner
  | setFingertable front others =>
    Short (front :: others) ∧ ∀ x ∈ front :: others, (Wire.nodeID P).Fits x
  | findSucc key => Short key
  | findPred key => Short key
  | getNodeSucc => True
  | setPredecessor node => (Wire.nodeID P).Fits node

/-- The client's structs have other names than the server's. -/
theorem findArgs_encodes {key : Str} (h : Short key) (name name' : Str) :
    (Wire.findArgs P name).Encodes ⟨key⟩ ((Wire.findArgs P name').write ⟨key⟩) := by
  have hfits : (Wire.findArgs P name').Fits ⟨key⟩ := by
    intro m hm
    rw [List.mem_singleton.mp hm]
    exact fun s hs => Option.some.inj hs ▸ h
  exact ⟨(Struct.encodes_write hfits).exists_fields⟩

/-- What the client writes is read as the arguments of its call. -/
theorem readAsArgs_writeArgs {request : Request} (h : request.Fits P) :
    request.ReadAsArgs P (writeArgs P request) := by
  -- The `pargs` struct writes the fields of `args` in order, so the reader gets every one of them.
  cases request with
  | writeFile rFile =>
    have hfits : (Wire.writeFileArgs P).Fits ⟨rFile⟩ := by
      intro m hm
      rw [List.mem_singleton.mp hm]
      exact fun f hf => Option.some.inj hf ▸ h
    exact (Struct.encodes_write hfits).reads_default
  | readFile filename owner =>
    have hfits : (Wire.readFileArgs P).Fits ⟨filename, owner⟩ := by
      intro m hm
      rcases List.mem_pair.mp hm with rfl | rfl
      · exact fun s hs => Option.some.inj hs ▸ h.1
      · exact fun s hs => Option.some.inj hs ▸ h.2
    exact (Struct.encodes_write hfits).reads_default
  | setFingertable front others =>
    have hfits : (Wire.setFingertableArgs P).Fits ⟨front :: others⟩ := by
      intro m hm
      rw [List.mem_singleton.mp hm]
      exact fun l hl => Option.some.inj hl ▸ h
    exact (Struct.encodes_write hfits).reads_default
  | findSucc key => exact (findArgs_encodes h _ _).reads_default
  | findPred key => exact (findArgs_encodes h _ _).reads_default
  | getNodeSucc =>
    have hempty : (Wire.empty P (str "FileStore_getNodeSucc_args")).Encodes ()
        (writeArgs P .getNodeSucc) := ⟨_, [], rfl, List.Perm.refl [], fun f hf => (by cases hf)⟩
    exact hempty.reads_default
  | setPredecessor node =>
    have hfits : (Wire.setPredecessorArgs P).Fits ⟨node⟩ := by
      intro m hm
      rw [List.mem_singleton.mp hm]
      exact fun x hx => Option.some.inj hx ▸ h
    exact (Struct.encodes_write hfits).reads_default

/-- The message that a client sends. -/
def Incoming.ofRequest {request : Request} (h : request.Fits P) : Incoming P where
  method := request.method
  type := .call
  seqid := 0
  args := writeArgs P request
  request := some request
  short := short_method request
  is_call := Or.inl rfl
  understood := ⟨rfl, readAsArgs_writeArgs h⟩

/-- A call of a client that waits for the answer. -/
def exchange (P : TProtocol) (h : FileStoreIf σ) (state : σ) (request : Request) :
    Option (Except ClientFault Answer × σ) := do
  let ((reply, state), _) ← (processMessage P h state).run (send P request)
  let (answer, _) ← (recv P request).run reply
  return (answer, state)

/-- **One call.** -/
theorem exchange_eq (h : FileStoreIf σ) {state : σ} {request : Request} (hrequest : request.Fits P)
    (hfits : OutcomeFits P (h.perform request state).1) :
    exchange P h state request
      = some (seen request (h.perform request state).1, (h.perform request state).2) := by
  have hserver := (reads_processMessage h (Incoming.ofRequest hrequest) state).run_nil
  have hclient := (reads_recv h request state hfits 0).run_nil
  rw [exchange, show send P request = (Incoming.ofRequest hrequest).bytes from rfl, hserver]
  simp only [Incoming.ofRequest, bind, Option.bind, pure, hclient]

/-! ## Lookups -/

/-- `TApplicationException::what`. Thrift has texts of its own for an empty message; this is the
one for the type `UNKNOWN`. -/
def TApplicationException.what (x : TApplicationException) : Str :=
  if x.message = [] then str "TApplicationException: Unknown application exception" else x.message

/-- An exception of a call inside a handler. -/
def rethrown : Except ClientFault Answer → Except Thrown Answer
  | .ok answer => .ok answer
  | .error (.systemException e) => .error (.systemException e)
  | .error (.application x) => .error (.exception x.what)

/-- What a lookup gives, and whether it is still going on. -/
def awaited (silent : Bool) : Option (Except Thrown NodeID) → Except Thrown NodeID × Bool
  | some outcome => (outcome, silent)
  | none => (.error (.exception []), true)

/-- The other server, as far as lookups go: `find` is what it makes of a key that it is sent. The
state tells whether a lookup that came over the connection has not ended. -/
def answering (find : Str → Option (Except Thrown NodeID)) : FileStoreIf Bool where
  writeFile _ silent := (.ok (), silent)
  readFile _ _ silent := (.ok {}, silent)
  setFingertable _ _ silent := (.ok (), silent)
  findSucc key silent := awaited silent (find key)
  findPred key silent := awaited silent (find key)
  getNodeSucc silent := (.ok ⟨[], [], 0⟩, silent)
  setPredecessor _ silent := (.ok (), silent)

/-- `find` once more: the next server is asked over a connection, looks up the key that it reads
off it, and what comes back is returned or thrown again. -/
def remoteFind (P : TProtocol) (refused : Str) (answers : LocalNode → Str → Except Fault Bool)
    (noFingertable : String) (request : Str → Request) (net : Network) :
    ℕ → LocalNode → Str → Option (Except Thrown NodeID)
  | 0, _, _ => none
  | fuel + 1, n, key =>
    match answers n key with
    | .error f => some (.error (thrown refused f))
    | .ok true => some (.ok n.toNodeID)
    | .ok false =>
      match n.closestPrecedingNode key with
      | none => some (.error (thrown refused (.systemException noFingertable)))
      | some node =>
        match net (node.ip, node.port) with
        | none => some (.error (thrown refused .transport))
        | some callee => do
          let (answer, silent) ← exchange P
            (answering fun key => remoteFind P refused answers noFingertable request net fuel
              callee key) false (request key)
          if silent then none else some (FileStoreHandler.returned (rethrown answer))

/-- A server that answers a lookup answers it for the key it has decoded. -/
theorem perform_answering {request : Str → Request}
    (hrequest : request = .findSucc ∨ request = .findPred)
    (find : Str → Option (Except Thrown NodeID)) (key : Str) :
    (answering find).perform (request key) false
      = ((awaited false (find key)).1.map .node, (awaited false (find key)).2) := by
  rcases hrequest with rfl | rfl
  · rfl
  · rfl

/-- A lookup that does not end. -/
theorem exchange_silent {request : Str → Request}
    (hrequest : request = .findSucc ∨ request = .findPred) {key : Str} (hkey : Short key)
    (find : Str → Option (Except Thrown NodeID)) (hfind : find key = none) :
    ∃ answer, exchange P (answering find) false (request key) = some (answer, true) := by
  have hperform := perform_answering hrequest find key
  rw [hfind] at hperform
  have hshort : (request key).Fits P := by
    rcases hrequest with rfl | rfl
    · exact hkey
    · exact hkey
  have hfits : OutcomeFits P ((answering find).perform (request key) false).1 := by
    rw [hperform]
    exact show Short ([] : Str) by decide
  rw [exchange_eq (answering find) hshort hfits, hperform]
  exact ⟨_, rfl⟩

/-- The outcome of a lookup of the key that is sent comes back over the connection as it is. -/
theorem exchange_answering {request : Str → Request}
    (hrequest : request = .findSucc ∨ request = .findPred) {key : Str} (hkey : Short key)
    (find : Str → Option (Except Thrown NodeID)) {outcome : Except Thrown NodeID}
    (hfind : find key = some outcome) (hfits : OutcomeFits P (outcome.map .node))
    (htext : ∀ what, outcome = .error (.exception what) → what ≠ []) :
    ∃ answer, exchange P (answering find) false (request key) = some (answer, false) ∧
      FileStoreHandler.returned (rethrown answer) = outcome := by
  have hperform := perform_answering hrequest find key
  rw [hfind] at hperform
  have hshort : (request key).Fits P := by
    rcases hrequest with rfl | rfl
    · exact hkey
    · exact hkey
  have hdeclares : (request key).declares = true := by
    rcases hrequest with rfl | rfl
    · rfl
    · rfl
  have hexchange : exchange P (answering find) false (request key) = _ :=
    exchange_eq (answering find) hshort (by
      rw [hperform]
      exact hfits)
  rw [hperform] at hexchange
  refine ⟨_, hexchange, ?_⟩
  simp only [awaited]
  -- A SystemException is declared and comes back as one; any other exception comes back as a
  -- TApplicationException with its text.
  cases outcome with
  | ok node => rfl
  | error t =>
    cases t with
    | systemException e =>
      simp only [Except.map, seen, hdeclares, if_true]
      rfl
    | exception what =>
      have hne := htext what rfl
      simp only [Except.map, seen, rethrown, TApplicationException.what, if_neg hne]
      rfl

/-- A lookup ends with a node whose strings are short or throws one of the known texts. -/
theorem find_known {answers : LocalNode → Str → Except Fault Bool}
    (hanswers : ∀ n key f, answers n key = .error f → FileStoreHandler.Known f)
    {noFingertable : String} (htext : noFingertable ∈ FileStoreHandler.texts) {net : Network}
    (hnet : ∀ address n, net address = some n → (Wire.nodeID P).Fits n.toNodeID) {fuel : ℕ}
    {n : LocalNode} (hn : (Wire.nodeID P).Fits n.toNodeID) {key : Str} {res : Except Fault NodeID}
    (h : find answers noFingertable net fuel n key = some res) :
    (∀ x, res = .ok x → (Wire.nodeID P).Fits x) ∧
      ∀ f, res = .error f → FileStoreHandler.Known f := by
  induction fuel generalizing n with
  | zero => cases h
  | succ fuel ih =>
    -- The lookup ends at this node or goes on at another; by induction both give a known outcome.
    unfold find at h
    split at h
    · next f hf =>
      obtain rfl := Option.some.inj h
      exact ⟨fun x hx => (by cases hx), fun f' hf' => Except.error.inj hf' ▸ hanswers n key f hf⟩
    · obtain rfl := Option.some.inj h
      exact ⟨fun x hx => Except.ok.inj hx ▸ hn, fun f hf => (by cases hf)⟩
    · split at h
      · obtain rfl := Option.some.inj h
        exact ⟨fun x hx => (by cases hx), fun f hf => Except.error.inj hf ▸ Or.inr ⟨_, htext, rfl⟩⟩
      · split at h
        · obtain rfl := Option.some.inj h
          exact ⟨fun x hx => (by cases hx), fun f hf => Except.error.inj hf ▸ Or.inl rfl⟩
        · next callee hcallee => exact ih (hnet _ callee hcallee) h

/-- **A lookup over connections.** However many servers it is forwarded to, the node that is found
and the exception that is thrown come back to the caller as `find` has them. Induction on the
number of calls. -/
theorem remoteFind_eq {request : Str → Request}
    (hrequest : request = .findSucc ∨ request = .findPred)
    {answers : LocalNode → Str → Except Fault Bool}
    (hanswers : ∀ n key f, answers n key = .error f → FileStoreHandler.Known f)
    {noFingertable : String} (htext : noFingertable ∈ FileStoreHandler.texts) {net : Network}
    (hnet : ∀ address n, net address = some n → (Wire.nodeID P).Fits n.toNodeID) {refused : Str}
    (hrefused : Short refused) (hne : refused ≠ []) {key : Str} (hkey : Short key) (fuel : ℕ)
    (n : LocalNode) :
    remoteFind P refused answers noFingertable request net fuel n key
      = (find answers noFingertable net fuel n key).map (Except.mapError (thrown refused)) := by
  induction fuel generalizing n with
  | zero => rfl
  | succ fuel ih =>
    unfold remoteFind find
    cases hans : answers n key with
    | error f => rfl
    | ok b =>
      cases b with
      | true => rfl
      | false =>
        cases hnode : n.closestPrecedingNode key with
        | none => rfl
        | some node =>
          simp only
          cases hcallee : net (node.ip, node.port) with
          | none => rfl
          -- The callee looks up the key it decoded; by induction that is the lookup on the
          -- pointers, and the answer is read back unchanged.
          | some callee =>
            have hcall := ih callee
            cases hfind : find answers noFingertable net fuel callee key with
            | none =>
              rw [hfind, Option.map_none] at hcall
              obtain ⟨answer, hexchange⟩ := exchange_silent (P := P) hrequest hkey
                (fun key => remoteFind P refused answers noFingertable request net fuel callee key)
                hcall
              simp only [bind, Option.bind, hexchange, hfind, if_true]
              rfl
            | some res =>
              rw [hfind, Option.map_some] at hcall
              have hknown := find_known hanswers htext hnet (hnet _ callee hcallee) hfind
              have hfits : OutcomeFits P ((res.mapError (thrown refused)).map .node) := by
                cases res with
                | ok x => exact hknown.1 x rfl
                | error f => exact FileStoreHandler.short_thrown hrefused (hknown.2 f rfl)
              obtain ⟨answer, hexchange, hsame⟩ := exchange_answering hrequest hkey
                (fun key => remoteFind P refused answers noFingertable request net fuel callee key)
                hcall hfits (fun what hwhat => by
                  cases res with
                  | ok x => cases hwhat
                  | error f =>
                    cases f with
                    | systemException text => cases hwhat
                    | transport =>
                      cases hwhat
                      exact hne)
              simp only [bind, Option.bind, hexchange, hsame, hfind]
              rfl

/-- **Both lookups over connections.** With a key, a refusal and nodes whose strings are short
enough for the 32-bit lengths of the protocol, a chain of calls that each encode the key and decode
the answer ends as the chain of plain calls does, as seen by the first client. -/
theorem lookups_over_connections (P : TProtocol) {net : Network}
    (hnet : ∀ address n, net address = some n → (Wire.nodeID P).Fits n.toNodeID) {refused : Str}
    (hrefused : Short refused) (hne : refused ≠ []) {key : Str} (hkey : Short key) (fuel : ℕ)
    (n : LocalNode) :
    remoteFind P refused LocalNode.isSuccessor "No fingertable, can't find successor" .findSucc
        net fuel n key
      = (findSuccessor net fuel n key).map (Except.mapError (thrown refused)) ∧
    remoteFind P refused LocalNode.isPredecessor "Unknown successor, can't find successor"
        .findPred net fuel n key
      = (findPredecessor net fuel n key).map (Except.mapError (thrown refused)) :=
  ⟨remoteFind_eq (Or.inl rfl) (fun _ _ _ => FileStoreHandler.known_isSuccessor) (by decide) hnet
      hrefused hne hkey fuel n,
    remoteFind_eq (Or.inr rfl) (fun _ _ _ => FileStoreHandler.known_isPredecessor) (by decide) hnet
      hrefused hne hkey fuel n⟩

/-- The addresses of three local servers are short. -/
theorem localThree_fits : ∀ address n, localThree.network address = some n →
    (Wire.nodeID binaryProtocol).Fits n.toNodeID := by
  intro address n hn
  obtain ⟨x, hx, rfl⟩ := Option.map_eq_some_iff.mp hn
  have hmem := List.mem_of_find?_eq_some hx
  rw [HashRing.node_self hmem]
  simp only [localThree, List.mem_cons, List.not_mem_nil, or_false] at hmem
  rcases hmem with rfl | rfl | rfl
  · exact Wire.nodeID_fits_iff.mpr ⟨FileStoreHandler.short_nodeId _ _, by decide⟩
  · exact Wire.nodeID_fits_iff.mpr ⟨FileStoreHandler.short_nodeId _ _, by decide⟩
  · exact Wire.nodeID_fits_iff.mpr ⟨FileStoreHandler.short_nodeId _ _, by decide⟩

/-- The lookups of a key at one of three servers. -/
theorem lookups_over_connections_three :
    remoteFind binaryProtocol (str "refused") LocalNode.isSuccessor
        "No fingertable, can't find successor" .findSucc localThree.network 3
        (localThree.node (localNode 9091)) (List.replicate 64 0x30)
      = (findSuccessor localThree.network 3 (localThree.node (localNode 9091))
          (List.replicate 64 0x30)).map (Except.mapError (thrown (str "refused"))) :=
  (lookups_over_connections binaryProtocol localThree_fits (by decide) (by decide) (by decide) 3
    (localThree.node (localNode 9091))).1

end Cs457.Chord
