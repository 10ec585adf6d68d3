import Cs457.Kv.Cluster

/-!
# Key-value store — puts in progress

What a step of the cluster does to the puts in progress, with the connections out of sight: a
put is taken, a DoWrite is handled and answered, a WriteComplete is handled, a task of a write
strand starts or completes a put; any other step leaves the puts alone.

* **`grows_step`** — a replica only grows.
* **`moves_of_step`** — every step is of one of these kinds.
* **`Tidy.moves`** — only the uuids of puts are in use.
-/

namespace Cs457.Kv

open Transition

namespace Cluster

variable {ι : Type} [DecidableEq ι] {D : Deployment ι} {codecs : Coordinator.Codecs}
  {c c' : Cluster ι}

/-! ## The replicas -/

/-- **Every step lets the replicas grow.** -/
theorem grows_step {a : Action ι} (h : c.step codecs a = some c') (y : ι) :
    Replica.Grows codecs.replica (c.node y).replica (c'.node y).replica := by
  rcases node_of_step h with hsame | ⟨x, ev, m, es, hhandle, hnode, -⟩
  · rw [hsame]
    exact .same
  · exact forall_node_of_update
      (P := fun y n => Replica.Grows codecs.replica (c.node y).replica n.replica) hnode
      (Coordinator.handles_of_handle hhandle).grows (fun _ => .same) y

/-- The server `y` has been handed the record. -/
def ReceivedAt (codec : Codec DoWrite) (c : Cluster ι) (y : ι) (m : DoWrite) : Prop :=
  (c.node y).replica.Received codec m

/-! ## What a step does to the puts in progress -/

/-- A message that no put has a part in. -/
def Apart : ServerMessage → Prop
  | .doWrite msg => msg.uuid = "RR"
  | .writeComplete _ => False
  | _ => True

/-- **The kinds of steps**, as far as puts are concerned. -/
inductive Moves (D : Deployment ι) (codec : Codec DoWrite) (c c' : Cluster ι) : Prop
  | aside (puts : c'.puts = c.puts) (acks : c'.acks = c.acks)
      (strand : ∀ y, (c'.node y).writeStrand = (c.node y).writeStrand)
      (pending : ∀ y, (c'.node y).pendingWrites = (c.node y).pendingWrites)
      (old new : List (Packet ι)) (net : c'.net = old ++ new) (sub : List.Sublist old c.net)
      (apart : ∀ p ∈ new, Apart p.msg)
  | put (put : Put ι) (unused : c.Unused put.uuid) (puts : c'.puts = c.puts ++ [put])
      (acks : c'.acks = c.acks) (net : c'.net = c.net)
      (strand : ∀ y, (c'.node y).writeStrand = if y = put.node
        then (c.node y).writeStrand ++ [.start put.msg put.requestor put.uuid put.stamp]
        else (c.node y).writeStrand)
      (pending : ∀ y, (c'.node y).pendingWrites = (c.node y).pendingWrites)
      (received : ReceivedAt codec c' put.node put.record)
  | written (p : Packet ι) (msg : DoWrite) (content : p.msg = .doWrite msg)
      (regular : msg.uuid ≠ "RR") (puts : c'.puts = c.puts) (acks : c'.acks = c.acks)
      (strand : ∀ y, (c'.node y).writeStrand = (c.node y).writeStrand)
      (pending : ∀ y, (c'.node y).pendingWrites = (c.node y).pendingWrites)
      (old new : List (Packet ι)) (taken : List.Perm c.net (p :: old)) (net : c'.net = old ++ new)
      (single : new.length ≤ 1)
      (reply : ∀ q ∈ new, q.msg = .writeComplete ⟨msg.uuid⟩ ∧ q.src = p.dst ∧ q.dst = p.src)
      (received : ReceivedAt codec c' p.dst (Replica.logRecord msg.key msg.val msg.timestamp))
  | done (p : Packet ι) (msg : WriteComplete) (content : p.msg = .writeComplete msg) (id : ℕ)
      (sender : (D.config p.dst).replicas[id]? = some (D.config p.src).address)
      (puts : c'.puts = c.puts) (acks : c'.acks = c.acks) (taken : List.Perm c.net (p :: c'.net))
      (strand : ∀ y, (c'.node y).writeStrand = if y = p.dst
        then (c.node y).writeStrand ++ [.complete msg id] else (c.node y).writeStrand)
      (pending : ∀ y, (c'.node y).pendingWrites = (c.node y).pendingWrites)
  | started (x : ι) (msg : PutKey) (requestor : Client) (uuid : String) (stamp : Timestamp)
      (rest : List WriteTask)
      (head : (c.node x).writeStrand = .start msg requestor uuid stamp :: rest)
      (puts : c'.puts = c.puts) (acks : c'.acks = c.acks) (new : List (Packet ι))
      (net : c'.net = c.net ++ new)
      (strand : ∀ y, (c'.node y).writeStrand = if y = x then rest else (c.node y).writeStrand)
      (pending : ∀ y, (c'.node y).pendingWrites = if y = x
        then (c.node y).pendingWrites.emplace uuid
          ⟨msg.stream, msg.key, msg.consistency - 1, requestor⟩
        else (c.node y).pendingWrites)
      (sent : ∀ q ∈ new, q.src = x ∧ q.msg = .doWrite ⟨uuid, msg.key, stamp, msg.val⟩)
      (once : ∀ s : ℕ, new.countP
        (fun q => (D.config x).replicas[s]? = some (D.config q.dst).address) ≤ 1)
  | completed (x : ι) (msg : WriteComplete) (sender : ℕ) (rest : List WriteTask)
      (head : (c.node x).writeStrand = .complete msg sender :: rest) (puts : c'.puts = c.puts)
      (acks : c'.acks = c.acks ++ [(msg.uuid, sender)]) (net : c'.net = c.net)
      (strand : ∀ y, (c'.node y).writeStrand = if y = x then rest else (c.node y).writeStrand)
      (entry : PendingWrite) (found : (c.node x).pendingWrites.lookup msg.uuid = some entry)
      (pending : ∀ y, (c'.node y).pendingWrites = if y = x
        then (c.node y).pendingWrites.insert msg.uuid
          { entry with consistency := entry.consistency - 1 }
        else (c.node y).pendingWrites)

/-- What a server sends aside belongs to no put. -/
theorem apart_of_asideAll {m : Coordinator} {es : List Effect} (h : m.AsideAll es) {x : ι}
    {p : Packet ι} (hp : p ∈ es.filterMap (c.packet x)) : Apart p.msg := by
  obtain ⟨e, he, hpacket⟩ := List.mem_filterMap.mp hp
  obtain ⟨ch, rfl, _⟩ := packet_eq_some hpacket
  have haside := h _ he
  cases hmsg : p.msg with
  | doWrite w =>
    rw [hmsg] at haside
    exact haside
  | writeComplete w =>
    rw [hmsg] at haside
    exact haside
  | _ => trivial

/-- The messages of a broadcast: at most one goes to each replica. -/
theorem broadcast_once (hwired : Wired D c) (x : ι) (msg : ServerMessage) (s : ℕ) :
    (((c.node x).broadcast msg).filterMap (c.packet x)).countP
      (fun q => (D.config x).replicas[s]? = some (D.config q.dst).address) ≤ 1 := by
  rw [Coordinator.broadcast, List.filterMap_map, List.countP_filterMap]
  refine (List.countP_mono_left (q := fun i => i == s) fun i _ hi => ?_).trans
    (List.nodup_iff_count_le_one.mp List.nodup_range s)
  cases hpacket : c.packet x (.send (.outgoing i) msg) with
  | none =>
    simp only [Function.comp, hpacket] at hi
    cases hi
  | some q =>
    simp only [Function.comp, hpacket, Option.map_some, Option.getD_some, decide_eq_true_eq] at hi
    obtain ⟨ch, hsend, _, ⟨j, k, rfl, _, hwire⟩ | ⟨_, _, rfl, _⟩⟩ := packet_eq_some hpacket
    · obtain ⟨heq, _⟩ := Effect.send.inj hsend
      obtain rfl := Chan.outgoing.inj heq
      have hreplica := hwired.accepted (hwired.wire hwire)
      exact beq_iff_eq.mpr (D.index_unique hreplica hi)
    · cases hsend

/-- A part of the servers after one of them has gone over to a new state. -/
theorem update_part {β : Type} (f : Coordinator → β) (g : β → β) {x : ι} {m : Coordinator}
    (h : f m = g (f (c.node x))) (y : ι) :
    f (Function.update c.node x m y) = if y = x then g (f (c.node y)) else f (c.node y) := by
  rw [Function.update_apply, apply_ite f]
  split
  · next heq => rw [h, heq]
  · rfl

/-- A part that the new state has in common with the old one. -/
theorem update_same {β : Type} (f : Coordinator → β) {x : ι} {m : Coordinator}
    (h : f m = f (c.node x)) (y : ι) : f (Function.update c.node x m y) = f (c.node y) := by
  rw [update_part f id h]
  split <;> rfl

/-- A delivery, by the kinds of events. -/
theorem moves_of_deliver (hwired : Wired D c) {n : ℕ} {p : Packet ι} (hp : c.net[n]? = some p)
    {m : Coordinator} {es : List Effect}
    (hhandle : (c.node p.dst).handle codecs (.server p.chan p.msg) = some (m, es)) :
    Moves D codecs.replica c (c.advance p.dst (c.net.eraseIdx n) (m, es)) := by
  have hmem := List.mem_of_getElem? hp
  have htaken : List.Perm c.net (p :: c.net.eraseIdx n) := by
    obtain ⟨hlt, rfl⟩ := List.getElem?_eq_some_iff.mp hp
    exact (List.getElem_cons_eraseIdx_perm hlt).symm
  have hsub : List.Sublist (c.net.eraseIdx n) c.net := List.eraseIdx_sublist ..
  generalize hmsg : p.msg = content at hhandle
  generalize hchan : p.chan = source at hhandle
  have hkind := Coordinator.handles_of_handle hhandle
  have hnoSend : (c.advance p.dst (c.net.eraseIdx n) (m, [])).net = c.net.eraseIdx n ++ [] := rfl
  cases hkind with
  | introduce unknown found =>
    exact .aside rfl rfl (update_same Coordinator.writeStrand rfl)
      (update_same Coordinator.pendingWrites rfl) _ [] hnoSend hsub (List.forall_mem_nil _)
  | @doWrite _ msg id _ keeps sender write strand pending =>
    by_cases hRR : msg.uuid = "RR"
    · simp only [if_pos hRR]
      exact .aside rfl rfl (update_same Coordinator.writeStrand strand)
        (update_same Coordinator.pendingWrites pending) _ [] hnoSend hsub (List.forall_mem_nil _)
    · simp only [if_neg hRR]
      refine .written p msg hmsg hRR rfl rfl (update_same Coordinator.writeStrand strand)
        (update_same Coordinator.pendingWrites pending) _ _ htaken rfl
        (List.length_filterMap_le _ _) (fun q hq => ?_) ?_
      · obtain ⟨e, he, hpacket⟩ := List.mem_filterMap.mp hq
        obtain rfl := List.mem_singleton.mp he
        obtain ⟨ch, hsend, hsrc, hroute⟩ := packet_eq_some hpacket
        obtain ⟨rfl, hcontent⟩ := Effect.send.inj hsend
        refine ⟨hcontent.symm, hsrc, ?_⟩
        -- the reply goes to the server that the number stands for, and that is the sender
        rcases hroute with ⟨i, k, hi, _, hwire⟩ | ⟨_, _, hi, _⟩
        · obtain rfl := Chan.outgoing.inj hi
          have hto := hwired.accepted (hwired.wire hwire)
          have hfrom := hwired.sender hmem (hchan ▸ sender)
          exact D.distinct (Option.some.inj (hto.symm.trans hfrom))
        · cases hi
      · show (Function.update c.node p.dst m p.dst).replica.Received _ _
        rw [Function.update_self]
        exact Replica.received_write write
  | writeComplete keeps sender replica strand pending =>
    refine .done p _ hmsg _ (hwired.sender hmem (hchan ▸ sender)) rfl rfl ?_
      (update_part Coordinator.writeStrand (fun tasks => tasks ++ [_]) strand)
      (update_same Coordinator.pendingWrites pending)
    rw [hnoSend, List.append_nil]
    exact htaken
  | other keeps noPut noWrite replica strand pending aside =>
    exact .aside rfl rfl (update_same Coordinator.writeStrand strand)
      (update_same Coordinator.pendingWrites pending) _ _ rfl hsub
      fun q hq => apart_of_asideAll aside hq

/-- A message of a client: a put is taken, any other request leaves the puts alone. -/
theorem moves_of_client {x : ι} {requestor : Client} {msg : ClientMessage} {stamp : Timestamp}
    {uuid : String} (hunused : c.Unused uuid) {m : Coordinator} {es : List Effect}
    (hhandle : (c.node x).handle codecs (.client requestor msg stamp uuid) = some (m, es)) :
    Moves D codecs.replica c { c.advance x c.net (m, es) with
      puts := c.puts ++ takenBy x requestor stamp uuid msg } := by
  cases Coordinator.handles_of_handle hhandle with
  | @put _ put _ _ _ keeps write strand pending =>
    refine .put ⟨x, uuid, put, requestor, stamp⟩ hunused rfl rfl (List.append_nil _)
      (update_part Coordinator.writeStrand (fun tasks => tasks ++ [_]) strand)
      (update_same Coordinator.pendingWrites pending) ?_
    show (Function.update c.node x m x).replica.Received _ _
    rw [Function.update_self]
    exact Replica.received_write write
  | other keeps noPut noWrite replica strand pending aside =>
    have hnone : takenBy x requestor stamp uuid msg = ([] : List (Put ι)) := by
      cases msg with
      | putKey put => exact absurd rfl (noPut requestor put stamp uuid)
      | _ => rfl
    exact .aside ((congrArg _ hnone).trans (List.append_nil _)) rfl
      (update_same Coordinator.writeStrand strand)
      (update_same Coordinator.pendingWrites pending) _ _ rfl (List.Sublist.refl _)
      fun q hq => apart_of_asideAll aside hq

/-- The start of a write sends its DoWrites, at most one to each replica. -/
theorem moves_of_startWrite (hwired : Wired D c) {x : ι} {msg : PutKey} {requestor : Client}
    {uuid : String} {stamp : Timestamp} {rest : List WriteTask} {m : Coordinator}
    {replies : List Effect}
    (head : (c.node x).writeStrand = .start msg requestor uuid stamp :: rest)
    (strand : m.writeStrand = rest)
    (pending : m.pendingWrites = (c.node x).pendingWrites.emplace uuid
      ⟨msg.stream, msg.key, msg.consistency - 1, requestor⟩)
    (reply : replies.filterMap (c.packet x) = []) :
    Moves D codecs.replica c { c.advance x c.net (m, replies ++ (c.node x).broadcast
      (.doWrite ⟨uuid, msg.key, stamp, msg.val⟩)) with
      acks := c.acks ++ ackedBy .write (c.node x).writeStrand } := by
  have hnone : ackedBy .write (c.node x).writeStrand = [] := by
    rw [head]
    rfl
  -- The reply for a consistency of 1 goes to the client, so what enters the network is the
  -- broadcast.
  refine .started x msg requestor uuid stamp rest head rfl
    ((congrArg _ hnone).trans (List.append_nil _))
    (((c.node x).broadcast (.doWrite ⟨uuid, msg.key, stamp, msg.val⟩)).filterMap (c.packet x))
    ?_ (update_part Coordinator.writeStrand (fun _ => rest) strand)
    (update_part Coordinator.pendingWrites (fun writes => writes.emplace uuid _) pending)
    (fun q hq => ?_) (broadcast_once hwired x _)
  · show c.net ++ _ = _
    rw [List.filterMap_append, reply, List.nil_append]
  · obtain ⟨e, he, hpacket⟩ := List.mem_filterMap.mp hq
    obtain ⟨i, _, rfl⟩ := List.mem_map.mp he
    obtain ⟨ch, hsend, hsrc, _⟩ := packet_eq_some hpacket
    exact ⟨hsrc, (Effect.send.inj hsend).2.symm⟩

/-- A task of a server: only those of the write strand touch the puts. -/
theorem moves_of_run (hwired : Wired D c) {x : ι} {task : Task} {m : Coordinator}
    {es : List Effect} (hhandle : (c.node x).handle codecs task.event = some (m, es)) :
    Moves D codecs.replica c { c.advance x c.net (m, es) with
      acks := c.acks ++ ackedBy task (c.node x).writeStrand } := by
  -- Only the write strand moves a put; every other task is aside.
  have hkind := Coordinator.handles_of_handle hhandle
  generalize hev : task.event = ev at hkind
  cases hkind with
  | put | introduce | doWrite | writeComplete => cases task <;> cases hev
  | startWrite keeps head replica strand pending reply =>
    obtain rfl : task = .write := by cases task <;> first | rfl | cases hev
    refine moves_of_startWrite hwired head strand pending ?_
    rw [reply]
    split <;> rfl
  | @completeWrite msg sender rest entry _ _ keeps head replica strand found pending reply =>
    obtain rfl : task = .write := by cases task <;> first | rfl | cases hev
    have hacked : ackedBy .write (c.node x).writeStrand = [(msg.uuid, sender)] := by
      rw [head]
      rfl
    have hreplies : es.filterMap (c.packet x) = [] := by
      rw [reply]
      split <;> rfl
    refine .completed x msg sender rest head rfl (congrArg _ hacked) ?_
      (update_part Coordinator.writeStrand (fun _ => rest) strand) entry found
      (update_part Coordinator.pendingWrites (fun writes => writes.insert msg.uuid _) pending)
    show c.net ++ _ = _
    rw [hreplies, List.append_nil]
  | other keeps noPut noWrite replica strand pending aside =>
    have hnone : ackedBy task (c.node x).writeStrand = [] := by
      cases task with
      | write => exact absurd hev.symm noWrite
      | _ => rfl
    exact .aside rfl ((congrArg _ hnone).trans (List.append_nil _))
      (update_same Coordinator.writeStrand strand)
      (update_same Coordinator.pendingWrites pending) _ _ rfl (List.Sublist.refl _)
      fun q hq => apart_of_asideAll aside hq

/-- **What a step does to the puts in progress.** One case for each action. -/
theorem moves_of_step (hwired : Wired D c) {a : Action ι} (h : c.step codecs a = some c') :
    Moves D codecs.replica c c' := by
  cases steps_of_step h with
  | client unused handle => exact moves_of_client unused handle
  | deliver get next handle => exact moves_of_deliver hwired get handle
  | @lose n bound =>
    exact .aside rfl rfl (fun _ => rfl) (fun _ => rfl) (c.net.eraseIdx n) []
      (List.append_nil _).symm (List.eraseIdx_sublist ..) (List.forall_mem_nil _)
  | connect hreplica handle =>
    cases Coordinator.handles_of_handle handle with
    | other keeps noPut noWrite replica strand pending aside =>
      exact .aside rfl rfl (update_same Coordinator.writeStrand strand)
        (update_same Coordinator.pendingWrites pending) _ _ rfl (List.Sublist.refl _)
        fun q hq => apart_of_asideAll aside hq
  | run handle => exact moves_of_run hwired handle

/-! ## Uuids that have not been drawn -/

def WriteTask.uuid : WriteTask → String
  | .start _ _ uuid _ => uuid
  | .complete msg _ => msg.uuid

/-- The uuid of the put that a message belongs to. -/
def putOf : ServerMessage → Option String
  | .doWrite msg => if msg.uuid = "RR" then none else some msg.uuid
  | .writeComplete msg => some msg.uuid
  | _ => none

/-- A message that is apart has no uuid of a put. -/
theorem putOf_of_apart {msg : ServerMessage} (h : Apart msg) : putOf msg = none := by
  cases msg with
  | doWrite msg => exact if_pos h
  | writeComplete msg => exact absurd h id
  | _ => rfl

/-- There is no trace of the uuid. -/
structure Unseen (c : Cluster ι) (u : String) : Prop where
  net : ∀ p ∈ c.net, putOf p.msg ≠ some u
  strand : ∀ y, ∀ t ∈ (c.node y).writeStrand, WriteTask.uuid t ≠ u
  pending : ∀ y, u ∉ (c.node y).pendingWrites
  acks : ∀ s, (u, s) ∉ c.acks

/-- **Only the uuids of puts are in use.** -/
def Tidy (c : Cluster ι) : Prop := ∀ u, (∀ put ∈ c.puts, put.uuid ≠ u) → Unseen c u

omit [DecidableEq ι] in
/-- At the start no uuid is in use. -/
theorem tidy_start (D : Deployment ι) (codec : Codec DoWrite) (old : ι → List DoWrite)
    (hintFile : ι → List UInt8) : Tidy (start D codec old hintFile) := by
  intro u _
  exact ⟨nofun, nofun, fun y => AList.notMem_empty u, nofun⟩

/-! A step leaves no trace of a uuid that is not that of a put. One lemma for each place where a
uuid could stand. -/

section

variable {codec : Codec DoWrite} {u : String}

/-- No put is forgotten. -/
theorem Moves.puts_subset (hmoves : Moves D codec c c') : ∀ q ∈ c.puts, q ∈ c'.puts := by
  intro q hq
  cases hmoves with
  | put put unused puts acks net strand pending received =>
    rw [puts]
    exact List.mem_append_left _ hq
  | aside puts => exact puts ▸ hq
  | written p msg content regular puts => exact puts ▸ hq
  | done p msg content id sender puts => exact puts ▸ hq
  | started x msg requestor uuid stamp rest head puts => exact puts ▸ hq
  | completed x msg sender rest head puts => exact puts ▸ hq

omit [DecidableEq ι] in
/-- A message that was in the network belongs to no put of that uuid. -/
theorem Unseen.ne_of_taken (hc : Unseen c u) {p : Packet ι} {old : List (Packet ι)} {w : String}
    (taken : List.Perm c.net (p :: old)) (hput : putOf p.msg = some w) : w ≠ u := by
  rintro rfl
  exact hc.net p (taken.symm.subset List.mem_cons_self) hput

/-- What is sent belongs to the put of the task or of the message that is handled. -/
theorem Unseen.net_moves (hc : Unseen c u) (hmoves : Moves D codec c c') :
    ∀ p ∈ c'.net, putOf p.msg ≠ some u := by
  intro q hq
  cases hmoves with
  | aside puts acks strand pending old new net sub apart =>
    rcases List.mem_append.mp (net ▸ hq) with hq | hq
    · exact hc.net q (sub.subset hq)
    · -- what is new belongs to no put
      rw [putOf_of_apart (apart q hq)]
      exact nofun
  | put put unused puts acks net => exact hc.net q (net ▸ hq)
  | written p msg content regular puts acks strand pending old new taken net single reply =>
    rcases List.mem_append.mp (net ▸ hq) with hq | hq
    · exact hc.net q (taken.symm.subset (List.mem_cons_of_mem _ hq))
    · -- the answer has the uuid of the DoWrite
      have hne : msg.uuid ≠ u := hc.ne_of_taken taken (by rw [content, putOf, if_neg regular])
      rw [(reply q hq).1, putOf]
      exact fun heq => hne (Option.some.inj heq)
  | done p msg content id sender puts acks taken =>
    exact hc.net q (taken.symm.subset (List.mem_cons_of_mem _ hq))
  | started x msg requestor uuid stamp rest head puts acks new net strand pending sent =>
    rcases List.mem_append.mp (net ▸ hq) with hq | hq
    · exact hc.net q hq
    · -- the DoWrites have the uuid of the task
      have hne : uuid ≠ u :=
        hc.strand x (.start msg requestor uuid stamp) (head ▸ List.mem_cons_self)
      rw [(sent q hq).2, putOf]
      split
      · exact nofun
      · exact fun heq => hne (Option.some.inj heq)
  | completed x msg sender rest head puts acks net => exact hc.net q (net ▸ hq)

/-- A task that is appended is that of a new put or of a message that is handled. -/
theorem Unseen.strand_moves (hc : Unseen c u) (hmoves : Moves D codec c c')
    (hu : ∀ put ∈ c'.puts, put.uuid ≠ u) :
    ∀ y, ∀ t ∈ (c'.node y).writeStrand, WriteTask.uuid t ≠ u := by
  -- one more task of another uuid
  have happend : ∀ {y : ι} {t new : WriteTask}, t ∈ (c.node y).writeStrand ++ [new] →
      WriteTask.uuid new ≠ u → WriteTask.uuid t ≠ u := by
    intro y t new ht hnew
    rcases List.mem_append.mp ht with ht | ht
    · exact hc.strand y t ht
    · rw [List.mem_singleton.mp ht]
      exact hnew
  intro y t ht
  cases hmoves with
  | aside puts acks strand => exact hc.strand y t (strand y ▸ ht)
  | put put unused puts acks net strand =>
    rw [strand] at ht
    split at ht
    · refine happend ht (hu put ?_)
      rw [puts]
      exact List.mem_append_right _ List.mem_cons_self
    · exact hc.strand y t ht
  | written p msg content regular puts acks strand => exact hc.strand y t (strand y ▸ ht)
  | done p msg content id sender puts acks taken strand =>
    rw [strand] at ht
    split at ht
    · refine happend ht (hc.ne_of_taken taken ?_)
      rw [content]
      rfl
    · exact hc.strand y t ht
  | started x msg requestor uuid stamp rest head puts acks new net strand =>
    rw [strand] at ht
    split at ht
    · exact hc.strand x t (head ▸ List.mem_cons_of_mem _ ht)
    · exact hc.strand y t ht
  | completed x msg sender rest head puts acks net strand =>
    rw [strand] at ht
    split at ht
    · exact hc.strand x t (head ▸ List.mem_cons_of_mem _ ht)
    · exact hc.strand y t ht

/-- An entry is made or changed for the uuid of the task that runs. -/
theorem Unseen.pending_moves (hc : Unseen c u) (hmoves : Moves D codec c c') (y : ι) :
    u ∉ (c'.node y).pendingWrites := by
  cases hmoves with
  | aside puts acks strand pending => exact pending y ▸ hc.pending y
  | put put unused puts acks net strand pending => exact pending y ▸ hc.pending y
  | written p msg content regular puts acks strand pending => exact pending y ▸ hc.pending y
  | done p msg content id sender puts acks taken strand pending =>
    exact pending y ▸ hc.pending y
  | started x msg requestor uuid stamp rest head puts acks new net strand pending =>
    have hne : uuid ≠ u :=
      hc.strand x (.start msg requestor uuid stamp) (head ▸ List.mem_cons_self)
    rw [pending]
    split
    · rw [UnorderedMap.mem_emplace, not_or]
      exact ⟨hne.symm, hc.pending y⟩
    · exact hc.pending y
  | completed x msg sender rest head puts acks net strand entry found pending =>
    have hne : msg.uuid ≠ u := hc.strand x (.complete msg sender) (head ▸ List.mem_cons_self)
    rw [pending]
    split
    · rw [AList.mem_insert, not_or]
      exact ⟨hne.symm, hc.pending y⟩
    · exact hc.pending y

/-- The completion that is recorded was a task in the strand. -/
theorem Unseen.acks_moves (hc : Unseen c u) (hmoves : Moves D codec c c') (s : ℕ) :
    (u, s) ∉ c'.acks := by
  cases hmoves with
  | aside puts acks => exact acks ▸ hc.acks s
  | put put unused puts acks => exact acks ▸ hc.acks s
  | written p msg content regular puts acks => exact acks ▸ hc.acks s
  | done p msg content id sender puts acks => exact acks ▸ hc.acks s
  | started x msg requestor uuid stamp rest head puts acks => exact acks ▸ hc.acks s
  | completed x msg sender rest head puts acks =>
    intro hs
    rcases List.mem_append.mp (acks ▸ hs) with hs | hs
    · exact hc.acks s hs
    · exact hc.strand x (.complete msg sender) (head ▸ List.mem_cons_self)
        (Prod.mk.inj (List.mem_singleton.mp hs)).1.symm

/-- **Every step keeps the uuids tidy.** What is left without a put afterwards had none before. -/
theorem Tidy.moves (h : Tidy c) (hmoves : Moves D codec c c') : Tidy c' := by
  intro u hu
  have hc := h u fun q hq => hu q (hmoves.puts_subset q hq)
  exact ⟨hc.net_moves hmoves, hc.strand_moves hmoves hu, hc.pending_moves hmoves,
    hc.acks_moves hmoves⟩

end

end Cluster

end Cs457.Kv
