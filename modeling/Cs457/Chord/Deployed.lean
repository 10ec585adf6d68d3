import Cs457.Chord.Connection
import Cs457.Chord.Hops
import Cs457.Chord.OneMap
import Cs457.Chord.Started

/-!
# Chord — the file store that clients see

All of it together: servers that `init` has started, each with its files as bytes in a directory of
its own. A client asks any of them which server a file belongs to and calls that one, and it does
both over connections. For the files whose ids are looked up right it sees one map.

* **`FileServer.perform_call`** — the handler over the bytes.
* **`Serving.storeCall`** — one call of a client.
* **`deployed_store`** — any sequence of calls, from the initialisation on.
-/

namespace Cs457.Chord

open Reading TaggedStruct Clockwise Transition

variable {P : TProtocol} {T : FileTransport} {digest : Digest} {refused : Str}
  {callRpc : FileStoreHandler.CallRpc}

/-! ## The handler over the bytes -/

/-- `FileStoreHandler` with its files as bytes. -/
structure FileServer where
  node : LocalNode
  disk : Disk

namespace FileServer

/-- A method that touches no file. -/
def onPointers {β : Type} (s : FileServer) (method : FileStoreHandler → β × FileStoreHandler) :
    β × FileServer :=
  let (outcome, h) := method ⟨s.node, fun _ => none⟩
  (outcome, { s with node := h.node })

/-- A method over the files. -/
def onFiles {α : Type} (refused : Str) (s : FileServer) (body : DirectoryBody (List UInt8) α) :
    Except Thrown α × FileServer :=
  let (outcome, disk) := body.result s.disk
  (outcome.mapError (thrown refused), { s with disk := disk })

/-- The methods over the state of a server. -/
def methods (P : TProtocol) (T : FileTransport) (digest : Digest) (refused : Str)
    (callRpc : FileStoreHandler.CallRpc) : FileStoreIf FileServer :=
  let pointers := FileStoreHandler.methods digest refused callRpc
  { writeFile := fun rFile s =>
      s.onFiles refused (DirectoryBody.writeFile (encoded P T) digest s.node rFile)
    readFile := fun filename owner s =>
      s.onFiles refused (DirectoryBody.readFile (encoded P T) digest s.node filename owner)
    setFingertable := fun front others s => s.onPointers (pointers.setFingertable front others)
    findSucc := fun key s => s.onPointers (pointers.findSucc key)
    findPred := fun key s => s.onPointers (pointers.findPred key)
    getNodeSucc := fun s => s.onPointers pointers.getNodeSucc
    setPredecessor := fun node s => s.onPointers (pointers.setPredecessor node) }

end FileServer

def Call.request : Call → Request
  | readFile filename owner => .readFile filename owner
  | writeFile rFile => .writeFile rFile

/-- What a call returns. -/
def answerOf : Option RFile → Answer
  | some file => .file file
  | none => .done

/-- A call of the interface is the call of the handler on the directory of the server. -/
theorem FileServer.perform_call (s : FileServer) (call : Call) :
    (methods P T digest refused callRpc).perform call.request s
      = (((onDisk P T digest s.node call s.disk).1.mapError (thrown refused)).map answerOf,
        { s with disk := (onDisk P T digest s.node call s.disk).2 }) := by
  cases call with
  | readFile filename owner =>
    simp only [FileStoreIf.perform, Call.request, methods, onFiles, onDisk,
      DirectoryBody.perform, DirectoryBody.result_bind]
    rcases (DirectoryBody.readFile (encoded P T) digest s.node filename owner).result s.disk
      with ⟨f | file, disk⟩
    · rfl
    · rfl
  | writeFile rFile =>
    simp only [FileStoreIf.perform, Call.request, methods, onFiles, onDisk,
      DirectoryBody.perform, DirectoryBody.result_bind]
    rcases (DirectoryBody.writeFile (encoded P T) digest s.node rFile).result s.disk
      with ⟨f | _, disk⟩
    · rfl
    · rfl

/-! ## Clients -/

/-- The servers at their addresses. -/
abbrev Servers := Str × Int32 → Option FileServer

namespace Servers

def network (servers : Servers) : Network := fun address => (servers address).map FileServer.node

/-- The servers with other pointers. -/
def withPointers (servers : Servers) (net : Network) : Servers := fun address => do
  let n ← net address
  let s ← servers address
  return { s with node := n }

/-- The directories. -/
def disks (servers : Servers) (x : NodeID) : Disk :=
  ((servers (x.ip, x.port)).map FileServer.disk).getD fun _ => none

end Servers

section Client

variable (P) (T) (digest) (refused) (callRpc)

/-- `findSucc` at a server. There is no answer where more than `fuel` calls are nested. -/
def askOwner (fuel : ℕ) (net : Network) (x : NodeID) (key : Str) :
    Option (Except ClientFault Answer) := do
  let n ← net (x.ip, x.port)
  let (answer, silent) ← exchange P
    (answering fun key => remoteFind P refused LocalNode.isSuccessor
      "No fingertable, can't find successor" .findSucc net fuel n key) false (.findSucc key)
  if silent then none else answer

/-- `readFile` or `writeFile` at a server. -/
def callFile (o : NodeID) (call : Call) (servers : Servers) :
    Option (Except ClientFault Answer) × Servers :=
  match (servers (o.ip, o.port)).bind fun s =>
    exchange P (FileServer.methods P T digest refused callRpc) s call.request with
  | none => (none, servers)
  | some (answer, s) => (some answer, Function.update servers (o.ip, o.port) (some s))

/-- A call of a client that knows the server `c.1`: the file's server is looked up there, and the
file's method is called at that server. -/
def storeCall (fuel : ℕ) (c : NodeID × Call) (servers : Servers) :
    Option (Except ClientFault Answer) × Servers :=
  match askOwner P refused fuel servers.network c.1 (c.2.id digest) with
  | some (.ok (.node o)) => callFile P T digest refused callRpc o c.2 servers
  | answer => (answer, servers)

end Client

/-- What the client sees of an outcome. -/
def answered (refused : Str) : Except Fault (Option RFile) → Except ClientFault Answer
  | .ok result => .ok (answerOf result)
  | .error (.systemException text) => .error (.systemException { message := some (str text) })
  | .error .transport =>
    .error (.application { message := refused, type := FileStoreProcessor.unknown })

/-- What the client sees of an outcome. -/
theorem seen_eq_answered (call : Call) (outcome : Except Fault (Option RFile)) :
    seen call.request ((outcome.mapError (thrown refused)).map answerOf)
      = answered refused outcome := by
  rcases outcome with (text | _) | result
  · cases call with
    | readFile filename owner => rfl
    | writeFile rFile => rfl
  · rfl
  · rfl

/-! ## The ring behind them -/

/-- The servers of the ring, for the questions that are about their predecessors only. -/
def HashRing.linked (r : HashRing digest) : LinkedRing where
  toRing := r.toRing
  node := r.node
  self _ hx := HashRing.node_self hx
  linked _ _ := rfl

/-- Only the directory of the server that is called changes. -/
theorem Servers.disks_update {r : HashRing digest} (servers : Servers) {o x : NodeID}
    (ho : o ∈ r.lst) (hx : x ∈ r.lst) (s : FileServer) :
    Servers.disks (Function.update servers (o.ip, o.port) (some s)) x
      = Function.update servers.disks o s.disk x := by
  by_cases hxo : x = o
  · subst hxo
    rw [Function.update_self, Servers.disks, Function.update_self]
    rfl
  · have haddress : (x.ip, x.port) ≠ (o.ip, o.port) := fun ha => hxo (eq_of_address hx ho ha)
    rw [Function.update_of_ne hxo, Servers.disks, Function.update_of_ne haddress]
    rfl

/-- **The invariant.** The servers have the pointers of the ring, and all together the files of
`store`. -/
structure Serving (P : TProtocol) (T : FileTransport) (r : HashRing digest) (servers : Servers)
    (store : Str → Option RFile) : Prop where
  up : ∀ x ∈ r.lst, ∃ s, servers (x.ip, x.port) = some s ∧ s.node = r.node x
  fits : ∀ address s, servers address = some s → (Wire.nodeID P).Fits s.node.toNodeID
  shared : r.linked.Shared P T servers.disks store

namespace Serving

variable {r : HashRing digest} {servers : Servers} {store : Str → Option RFile}
  (h : Serving P T r servers store)

include h

/-- A server of the ring has the pointers of its node. -/
theorem network_at {x : NodeID} (hx : x ∈ r.lst) :
    servers.network (x.ip, x.port) = some (r.node x) := by
  obtain ⟨s, hs, hnode⟩ := h.up x hx
  rw [Servers.network, hs, Option.map_some, hnode]

/-- The strings of its node are short. -/
theorem fits_node {x : NodeID} (hx : x ∈ r.lst) : (Wire.nodeID P).Fits x := by
  obtain ⟨s, hs, hnode⟩ := h.up x hx
  have hfits := h.fits _ s hs
  rw [hnode, HashRing.node_self hx] at hfits
  exact hfits

/-- **The lookup** tells the client the owner of the key. -/
theorem askOwner (hrefused : Short refused) (hne : refused ≠ []) {x o : NodeID} (hx : x ∈ r.lst)
    {key : Str} (hkey : IsId key) (hshort : Short key) (hroutable : HashRing.Routable r key)
    (ho : IsAtOrAfter NodeID.id r.lst key o) :
    Chord.askOwner P refused 260 servers.network x key = some (.ok (.node o)) := by
  have hnet : ∀ address n, servers.network address = some n →
      (Wire.nodeID P).Fits n.toNodeID := by
    intro address n hn
    obtain ⟨s, hs, rfl⟩ := Option.map_eq_some_iff.mp hn
    exact h.fits address s hs
  have hfind : findSuccessor servers.network 260 (r.node x) key = some (.ok o) :=
    (find_congr (fun y hy => h.network_at hy) _ _ key 260 hx).trans
      (HashRing.findSuccessor_within hkey hroutable ho hx)
  have hremote : remoteFind P refused LocalNode.isSuccessor "No fingertable, can't find successor"
      .findSucc servers.network 260 (r.node x) key = some (.ok o) :=
    (remoteFind_eq (Or.inl rfl) (fun _ _ _ => FileStoreHandler.known_isSuccessor) (by decide) hnet
      hrefused hne hshort 260 (r.node x)).trans
        (congrArg (Option.map (Except.mapError (thrown refused))) hfind)
  -- the server looks up the key that it reads off the connection
  have hperform := perform_answering (Or.inl rfl) (fun key => remoteFind P refused
    LocalNode.isSuccessor "No fingertable, can't find successor" .findSucc servers.network 260
      (r.node x) key) key
  rw [hremote] at hperform
  have hrequest : (Request.findSucc key).Fits P := hshort
  have hexchange : exchange P _ false (.findSucc key) = _ := exchange_eq _ hrequest (by
    rw [hperform]
    exact h.fits_node ho.mem)
  rw [hperform] at hexchange
  rw [Chord.askOwner, h.network_at hx]
  simp only [Option.bind_eq_bind, Option.bind_some, hexchange]
  rfl

omit h in
/-- What a map returns of its files fits the wire when they do. -/
theorem outcomeFits_onMap {call : Call}
    (hfits : ∀ file ∈ store (call.id digest), (Wire.rFile P).Fits file) :
    OutcomeFits P (((onMap digest call store).1.mapError (thrown refused)).map answerOf) := by
  cases call with
  | readFile filename owner =>
    simp only [onMap]
    cases hfile : store (fileId digest filename owner) with
    | none => exact show Short (SystemException.what ⟨some (str "File does not exist")⟩) by decide
    | some file => exact hfits file hfile
  | writeFile rFile => trivial

/-- The directory of one server changes, and nobody's pointers. -/
theorem update {o : NodeID} (ho : o ∈ r.lst) {s s' : FileServer}
    (hs : servers (o.ip, o.port) = some s) (hnode : s'.node = s.node) {store' : Str → Option RFile}
    (hshared : r.linked.Shared P T (Function.update servers.disks o s'.disk) store') :
    Serving P T r (Function.update servers (o.ip, o.port) (some s')) store' := by
  refine ⟨fun x hx => ?_, fun address t ht => ?_, fun x hx => ?_⟩
  · by_cases ha : (x.ip, x.port) = (o.ip, o.port)
    · obtain ⟨t, ht, hnodet⟩ := h.up x hx
      rw [ha, hs, Option.some.injEq] at ht
      rw [ha, Function.update_self]
      exact ⟨s', rfl, hnode.trans (ht ▸ hnodet)⟩
    · rw [Function.update_of_ne ha]
      exact h.up x hx
  · by_cases ha : address = (o.ip, o.port)
    · subst ha
      rw [Function.update_self, Option.some.injEq] at ht
      rw [← ht, hnode]
      exact h.fits _ s hs
    · rw [Function.update_of_ne ha] at ht
      exact h.fits address t ht
  · rw [servers.disks_update ho hx]
    exact hshared x hx

/-- **The call at the owner.** It accepts the id, and what it does in its directory is what the
call does to the one map. -/
theorem callFile {o : NodeID} (ho : o ∈ r.lst) {call : Call} (hfits : call.request.Fits P)
    (hkept : call.Fits (encoded P T) digest) (haccepts : r.linked.Accepts (call.id digest) o) :
    (Chord.callFile P T digest refused callRpc o call servers).1
        = some (answered refused (onMap digest call store).1) ∧
      Serving P T r (Chord.callFile P T digest refused callRpc o call servers).2
        (onMap digest call store).2 := by
  obtain ⟨s, hs, hnode⟩ := h.up o ho
  have hdisk : servers.disks o = s.disk := by rw [Servers.disks, hs]; rfl
  -- on the map, and on the bytes of the directory
  obtain ⟨hsame, hshared⟩ := h.shared.call digest ho hkept
  simp only [LinkedRing.onServer, LinkedRing.onOneMap, if_pos haccepts, hdisk] at hsame hshared
  have hbytes : onDisk P T digest (r.linked.node o) call s.disk
      = onDisk P T digest s.node call s.disk := hnode ▸ rfl
  rw [hbytes] at hsame hshared
  -- over the connection
  have hfile : ∀ file ∈ store (call.id digest), (Wire.rFile P).Fits file := by
    intro file hfile
    have hid := Holds.bind_read (h.shared o ho) (call.id digest)
    rw [LinkedRing.share, if_pos haccepts, hfile] at hid
    obtain ⟨content, -, hread⟩ := Option.bind_eq_some_iff.mp hid
    exact fits_of_encoded_read hread
  have hperform : (FileServer.methods P T digest refused callRpc).perform call.request s = _ :=
    FileServer.perform_call s call
  have hexchange : exchange P (FileServer.methods P T digest refused callRpc) s call.request
      = _ := exchange_eq _ hfits (by
    rw [hperform, hsame]
    exact outcomeFits_onMap hfile)
  rw [hperform, seen_eq_answered, hsame] at hexchange
  simp only [Chord.callFile, hs, Option.bind_some, hexchange]
  refine ⟨trivial, h.update ho hs ?_ hshared⟩
  rfl

/-- **One call of a client**, whichever server it knows. -/
theorem storeCall (hrefused : Short refused) (hne : refused ≠ []) {x : NodeID} (hx : x ∈ r.lst)
    {call : Call} (hfits : call.request.Fits P) (hkept : call.Fits (encoded P T) digest)
    (hroutable : HashRing.Routable r (call.id digest)) :
    (Chord.storeCall P T digest refused callRpc 260 (x, call) servers).1
        = some (answered refused (onMap digest call store).1) ∧
      Serving P T r (Chord.storeCall P T digest refused callRpc 260 (x, call) servers).2
        (onMap digest call store).2 := by
  have hid : IsId (call.id digest) ∧ Short (call.id digest) := by
    cases call with
    | readFile filename owner => exact ⟨isId_sha256 digest _, Wire.short_sha256 digest _⟩
    | writeFile rFile => exact ⟨isId_sha256 digest _, Wire.short_sha256 digest _⟩
  obtain ⟨o, howner⟩ := exists_atOrAfter (f := NodeID.id) r.nonempty (call.id digest)
  have ho := (atOrAfter_eq_some_iff r.ascending).mp howner
  have haccepts : r.linked.Accepts (call.id digest) o :=
    (HashRing.isSuccessor_eq ho.mem _).trans
      (congrArg Except.ok ((HashRing.succ_iff ho.mem hroutable.clear).mpr ho))
  have hask := h.askOwner hrefused hne hx hid.1 hid.2 hroutable ho
  simp only [Chord.storeCall, hask]
  exact h.callFile ho.mem hfits hkept haccepts

/-- **Any sequence of calls.** Induction on the calls. -/
theorem storeCalls (hrefused : Short refused) (hne : refused ≠ []) {calls : List (NodeID × Call)}
    (hcalls : ∀ c ∈ calls, c.1 ∈ r.lst ∧ c.2.request.Fits P ∧ c.2.Fits (encoded P T) digest ∧
      HashRing.Routable r (c.2.id digest)) :
    (outcomes (Chord.storeCall P T digest refused callRpc 260) calls servers).1
      = (outcomes (onMap digest) (calls.map Prod.snd) store).1.map fun outcome =>
        some (answered refused outcome) := by
  induction calls generalizing servers store with
  | nil => rfl
  | cons c calls ih =>
    obtain ⟨hx, hfits, hkept, hroutable⟩ := hcalls c List.mem_cons_self
    obtain ⟨hsame, hnext⟩ :
        (Chord.storeCall P T digest refused callRpc 260 c servers).1 = _ ∧ Serving P T r _ _ :=
      h.storeCall hrefused hne hx hfits hkept hroutable
    have hrest := ih hnext fun c hc => hcalls c (List.mem_cons_of_mem _ hc)
    simp only [outcomes, List.map_cons]
    rw [hsame, hrest]

end Serving

/-! ## From the initialisation on -/

/-- **The file store is one map.** The servers are initialised in any order, whatever pointers they
hold before; their directories hold the shares of some map of files. Then any sequence of calls of
clients, each of which knows any of the servers, is answered as that map answers it, as long as the
ids of the files are looked up right, the requests fit the protocol and no file is larger than the
transport of the directories reads back. -/
theorem deployed_store (P : TProtocol) (T : FileTransport) (digest : Digest)
    (nodes order : List NodeID) (servers : Servers) (hne : nodes ≠ [])
    (hids : ∀ x ∈ nodes, x.id = nodeId digest x.ip x.port)
    (hdistinct : (nodes.map NodeID.id).Nodup)
    (htop : ∀ x ∈ nodes, hexValue x.id ≠ 2 ^ 256 - 1) (horder : order.Perm nodes)
    (hup : ∀ x ∈ nodes, ∃ s, servers (x.ip, x.port) = some s ∧ s.node.toNodeID = x)
    (hfits : ∀ address s, servers address = some s → (Wire.nodeID P).Fits s.node.toNodeID)
    {store : Str → Option RFile}
    (hstore : (ringOf hne hids hdistinct).linked.Shared P T servers.disks store)
    (hrefused : Short refused) (hnonempty : refused ≠ [])
    (callRpc : FileStoreHandler.CallRpc) :
    ∃ net', initAll digest nodes order servers.network = some net' ∧
      ∀ calls : List (NodeID × Call),
        (∀ c ∈ calls, c.1 ∈ nodes ∧ c.2.request.Fits P ∧ c.2.Fits (encoded P T) digest ∧
          HashRing.Routable (ringOf hne hids hdistinct) (c.2.id digest)) →
        (outcomes (storeCall P T digest refused callRpc 260) calls
            (servers.withPointers net')).1
          = (outcomes (onMap digest) (calls.map Prod.snd) store).1.map fun outcome =>
            some (answered refused outcome) := by
  -- `init` gives every node its pointers and changes nothing else of a server.
  obtain ⟨net', hinit, hnodes, hself⟩ := initAll_nodes digest nodes order servers.network hne hids
    hdistinct htop horder fun x hx => by
      obtain ⟨s, hs, hnode⟩ := hup x hx
      exact ⟨s.node, by rw [Servers.network, hs, Option.map_some], hnode⟩
  -- So the server of a node is the one before, with the new pointers.
  have hat : ∀ {address : Str × Int32} {n : LocalNode} {s : FileServer}, net' address = some n →
      servers address = some s →
        servers.withPointers net' address = some { s with node := n } := by
    intro address n s hn hs
    simp only [Servers.withPointers, hn, hs, Option.bind_eq_bind, Option.bind_some]
    rfl
  -- The ring answers as one map when its servers hold the shares of one store.
  have hserving : Serving P T (ringOf hne hids hdistinct) (servers.withPointers net') store := by
    refine ⟨fun x hx => ?_, fun address s' hs' => ?_, fun x hx => ?_⟩
    · obtain ⟨s, hs, -⟩ := hup x (mem_sortNodes.mp hx)
      exact ⟨_, hat (hnodes x (mem_sortNodes.mp hx)) hs, rfl⟩
    · simp only [Servers.withPointers, Option.bind_eq_bind, Option.bind_eq_some_iff] at hs'
      obtain ⟨n', hn', s, hs, hs''⟩ := hs'
      obtain ⟨n, hn, hsame⟩ := hself address n' hn'
      obtain rfl := Option.some.inj hs''
      rw [Servers.network, hs, Option.map_some, Option.some.injEq] at hn
      rw [hsame, ← hn]
      exact hfits address s hs
    · obtain ⟨s, hs, -⟩ := hup x (mem_sortNodes.mp hx)
      have hsame : (servers.withPointers net').disks x = servers.disks x := by
        rw [Servers.disks, Servers.disks, hat (hnodes x (mem_sortNodes.mp hx)) hs, hs]
        rfl
      rw [hsame]
      exact hstore x hx
  refine ⟨net', hinit, fun calls hcalls => ?_⟩
  exact hserving.storeCalls hrefused hnonempty fun c hc =>
    ⟨mem_sortNodes.mpr (hcalls c hc).1, (hcalls c hc).2⟩

/-- Two servers with empty directories. -/
def emptyServers : Servers := fun address =>
  ([9091, 9092].find? fun port => (str "127.0.0.1", port) = address).map fun port =>
    ⟨.create localDigest (str "127.0.0.1") port, fun _ => none⟩

/-- A file is written through one of them and read through the other. -/
def addressThroughBoth : List (NodeID × Call) :=
  [(localNode 9091, .writeFile addressFile),
    (localNode 9092, .readFile (str "127.0.0.1") (str "9090"))]

/-- Two servers are initialised; a file that is written through one of them is read through the
other. -/
theorem deployed_store_pair :
    ∃ net', initAll localDigest [localNode 9091, localNode 9092] [localNode 9092, localNode 9091]
        emptyServers.network = some net' ∧
      (outcomes (storeCall binaryProtocol eventTransport localDigest (str "refused")
          (fun _ _ => .error (.exception [])) 260) addressThroughBoth
          (emptyServers.withPointers net')).1
        = (outcomes (onMap localDigest) (addressThroughBoth.map Prod.snd) fun _ => none).1.map
          fun outcome => some (answered (str "refused") outcome) := by
  have hids : ∀ x ∈ [localNode 9091, localNode 9092], x.id = nodeId localDigest x.ip x.port := by
    intro x hx
    rcases List.mem_pair.mp hx with rfl | rfl
    · rfl
    · rfl
  have hdistinct : ([localNode 9091, localNode 9092].map NodeID.id).Nodup := by decide +kernel
  -- The key of the calls is above both ids, so its owner is the first node.
  have habove : ∀ x ∈ [localNode 9091, localNode 9092], x.id < (localNode 9090).id := by
    decide +kernel
  have hroutable : HashRing.Routable (ringOf (List.cons_ne_nil _ _) hids hdistinct)
      (localNode 9090).id := by
    refine HashRing.routable_of_above (isId_sha256 localDigest _) (fun htail => ?_) fun x hx =>
      habove x (mem_sortNodes.mp hx)
    have hlength := congrArg List.length htail
    simp [ringOf, sortNodes] at hlength
  have hup : ∀ x ∈ [localNode 9091, localNode 9092],
      ∃ s, emptyServers (x.ip, x.port) = some s ∧ s.node.toNodeID = x := by
    intro x hx
    rcases List.mem_pair.mp hx with rfl | rfl
    · exact ⟨_, rfl, rfl⟩
    · exact ⟨_, rfl, rfl⟩
  -- The servers start empty, each with its share of the empty store.
  have hstore : (ringOf (List.cons_ne_nil _ _) hids hdistinct).linked.Shared binaryProtocol
      eventTransport emptyServers.disks fun _ => none := by
    intro x hx id
    rcases List.mem_pair.mp (mem_sortNodes.mp hx) with rfl | rfl
    · simp only [LinkedRing.share, ite_self]
      rfl
    · simp only [LinkedRing.share, ite_self]
      rfl
  have hfits : ∀ address s, emptyServers address = some s →
      (Wire.nodeID binaryProtocol).Fits s.node.toNodeID := by
    intro address s hs
    obtain ⟨port, -, rfl⟩ := Option.map_eq_some_iff.mp hs
    exact Wire.nodeID_fits_iff.mpr ⟨FileStoreHandler.short_nodeId _ _,
      show Short (str "127.0.0.1") by decide⟩
  obtain ⟨net', hinit, hcalls⟩ := deployed_store binaryProtocol eventTransport
    localDigest [localNode 9091, localNode 9092] [localNode 9092, localNode 9091] emptyServers
    (List.cons_ne_nil _ _) hids hdistinct (by decide +kernel) (List.Perm.swap _ _ []) hup hfits
    hstore (show Short (str "refused") by decide) (by decide) (fun _ _ => .error (.exception []))
  refine ⟨net', hinit, hcalls addressThroughBoth fun c hc => ?_⟩
  rcases List.mem_pair.mp hc with rfl | rfl
  · have hfile : (Wire.rFile binaryProtocol).Fits addressFile := by
      refine Wire.rFile_fits_iff.mpr ⟨fun m hm => ?_, by decide⟩
      obtain rfl := Option.some.inj hm
      exact Wire.rFileMetadata_fits_iff.mpr ⟨by decide, by decide, by decide⟩
    exact ⟨List.mem_cons_self, hfile, write_kept _ hfile (by decide), hroutable⟩
  · exact ⟨List.mem_cons_of_mem _ List.mem_cons_self, ⟨by decide, by decide⟩,
      fun rFile hrFile => (by cases hrFile), hroutable⟩

end Cs457.Chord
