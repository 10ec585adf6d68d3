import Cs457.Kv.Writes
import Cs457.Lib.Transition
import Mathlib.Logic.Function.Basic

/-!
# Key-value store — the cluster

Any number of servers, each a `Coordinator`, with the connections between them and the
messages on the way. A server connects to each of its configured replicas and introduces
itself there; when a connection breaks it connects again, and what was sent on the old one may
be lost. A message is sent at most once on the connection that its channel has at that time,
and the messages of a connection arrive in order.

* **`Cluster.step`** — the steps: a request of a client, the arrival or loss of a message, a
  connect, the next task of a strand.
* **`Wired.step`** — the invariant of the connections: a handler knows which server a message
  comes from.
-/

namespace Cs457.Kv

open Transition

/-- The address a server listens at, its port as a decimal string. -/
def Config.address (config : Config) : String × String :=
  (config.listenIp, toString config.listenPort.toNat)

/-- The servers: their addresses differ, and each lists some of the others. -/
structure Deployment (ι : Type) where
  config : ι → Config
  distinct : Function.Injective fun x => (config x).address
  nodup : ∀ x, (config x).replicas.Nodup
  others : ∀ x, (config x).address ∉ (config x).replicas

/-- A replica has one number. -/
theorem Deployment.index_unique {ι : Type} (D : Deployment ι) {x : ι} {i j : ℕ}
    {a : String × String} (hi : (D.config x).replicas[i]? = some a)
    (hj : (D.config x).replicas[j]? = some a) : i = j :=
  (List.getElem?_inj (List.getElem?_eq_some_iff.mp hi).1 (D.nodup x)).mp (hi.trans hj.symm)

/-- A message on the way to the channel `chan` of the server `dst`. -/
structure Packet (ι : Type) where
  src : ι
  dst : ι
  chan : Chan
  msg : ServerMessage
  deriving DecidableEq

/-- A put that a server has taken from a client. -/
structure Put (ι : Type) where
  node : ι
  uuid : String
  msg : PutKey
  requestor : Client
  stamp : Timestamp
  deriving DecidableEq

/-- The record of a put in the logs. -/
def Put.record {ι : Type} (put : Put ι) : DoWrite :=
  Replica.logRecord put.msg.key put.msg.val put.stamp

/-- `wire x i` is the connection of `m_channels[i]` of `x`: the server at the other end and its
number there. `accepted y` lists the connections that `y` has accepted, each with the server
and the channel at the other end. `puts` and `acks` are history: the puts so far, and the
WriteCompletes handled so far, by uuid and number of the sender. -/
structure Cluster (ι : Type) where
  node : ι → Coordinator
  accepted : ι → List (ι × ℕ) := fun _ => []
  wire : ι → ℕ → Option (ι × ℕ) := fun _ _ => none
  net : List (Packet ι) := []
  puts : List (Put ι) := []
  acks : List (String × ℕ) := []

/-- The tasks of a server. -/
inductive Task where
  | log
  | hint
  | write
  | read (uuid : String)
  | posted (n : ℕ)
  deriving DecidableEq, Repr

def Task.event : Task → Coordinator.Event
  | .log => .runLog
  | .hint => .runHint
  | .write => .runWrite
  | .read uuid => .runRead uuid
  | .posted n => .runPosted n

inductive Action (ι : Type) where
  | client (x : ι) (requestor : Client) (msg : ClientMessage) (stamp : Timestamp) (uuid : String)
  | deliver (n : ℕ)
  | lose (n : ℕ)
  | connect (x : ι) (i : ℕ) (y : ι)
  | run (x : ι) (task : Task)
  deriving DecidableEq

namespace Cluster

variable {ι : Type} [DecidableEq ι]

/-- All servers are started on their logs. -/
def start (D : Deployment ι) (codec : Codec DoWrite) (old : ι → List DoWrite)
    (hintFile : ι → List UInt8) : Cluster ι where
  node x := Coordinator.create (D.config x) (Log.records codec (old x)) (hintFile x)

/-- Where a message of `x` goes. On a channel without a connection it is lost. -/
def packet (c : Cluster ι) (x : ι) : Effect → Option (Packet ι)
  | .send (.outgoing i) msg => (c.wire x i).map fun (y, k) => ⟨x, y, .accepted k, msg⟩
  | .send (.accepted k) msg =>
    match (c.accepted x)[k]? with
    | none => none
    | some (y, i) => if c.wire y i = some (x, k) then some ⟨x, y, .outgoing i, msg⟩ else none
  | _ => none

/-- The server `x` goes over to a new state and sends. -/
def advance (c : Cluster ι) (x : ι) (net : List (Packet ι))
    (res : Coordinator × List Effect) : Cluster ι :=
  { c with
    node := Function.update c.node x res.1
    net := net ++ res.2.filterMap (c.packet x) }

/-- The generator has not drawn the uuid before. -/
def Unused (c : Cluster ι) (uuid : String) : Prop := uuid ≠ "RR" ∧ ∀ put ∈ c.puts, put.uuid ≠ uuid

instance (c : Cluster ι) (uuid : String) : Decidable (c.Unused uuid) :=
  inferInstanceAs (Decidable (_ ∧ _))

/-- No message on the same connection is ahead of the `n`-th. -/
def IsNext (c : Cluster ι) (n : ℕ) (p : Packet ι) : Prop :=
  ∀ q ∈ c.net.take n, (q.dst, q.chan) ≠ (p.dst, p.chan)

instance (c : Cluster ι) (n : ℕ) (p : Packet ι) : Decidable (c.IsNext n p) :=
  List.decidableBAll _ _

/-- The put that a request is. -/
def takenBy (x : ι) (requestor : Client) (stamp : Timestamp) (uuid : String) :
    ClientMessage → List (Put ι)
  | .putKey msg => [⟨x, uuid, msg, requestor, stamp⟩]
  | _ => []

/-- The WriteComplete that a task handles. -/
def ackedBy (task : Task) (strand : List WriteTask) : List (String × ℕ) :=
  match task, strand with
  | .write, .complete msg sender :: _ => [(msg.uuid, sender)]
  | _, _ => []

def step (codecs : Coordinator.Codecs) (c : Cluster ι) : Action ι → Option (Cluster ι)
  | .client x requestor msg stamp uuid =>
    if c.Unused uuid then
      ((c.node x).handle codecs (.client requestor msg stamp uuid)).map fun res =>
        { c.advance x c.net res with puts := c.puts ++ takenBy x requestor stamp uuid msg }
    else none
  | .deliver n =>
    match c.net[n]? with
    | none => none
    | some p => if c.IsNext n p then
        ((c.node p.dst).handle codecs (.server p.chan p.msg)).map
          (c.advance p.dst (c.net.eraseIdx n))
      else none
  | .lose n => if n < c.net.length then some { c with net := c.net.eraseIdx n } else none
  -- an older connection of the channel is given up; what is on its way there is lost
  | .connect x i y =>
    if (c.node x).config.replicas[i]? = some (c.node y).config.address then
      ((c.node x).handle codecs (.connected i)).map fun res =>
        { c.advance x c.net res with
          accepted := Function.update c.accepted y (c.accepted y ++ [(x, i)])
          wire := Function.update c.wire x
            (Function.update (c.wire x) i (some (y, (c.accepted y).length))) }
    else none
  | .run x task =>
    ((c.node x).handle codecs task.event).map fun res =>
      { c.advance x c.net res with acks := c.acks ++ ackedBy task (c.node x).writeStrand }

/-- No message is on the way and no task waits. -/
def Quiet (c : Cluster ι) : Prop := c.net = [] ∧ ∀ x, (c.node x).Idle

/-! ## The kinds of steps -/

/-- A step, with what lets it happen and the whole state after it. -/
inductive Steps (codecs : Coordinator.Codecs) (c : Cluster ι) : Action ι → Cluster ι → Prop
  | client {x requestor msg stamp uuid m es} (unused : c.Unused uuid)
      (handle : (c.node x).handle codecs (.client requestor msg stamp uuid) = some (m, es)) :
      Steps codecs c (.client x requestor msg stamp uuid)
        { c.advance x c.net (m, es) with puts := c.puts ++ takenBy x requestor stamp uuid msg }
  | deliver {n p m es} (get : c.net[n]? = some p) (next : c.IsNext n p)
      (handle : (c.node p.dst).handle codecs (.server p.chan p.msg) = some (m, es)) :
      Steps codecs c (.deliver n) (c.advance p.dst (c.net.eraseIdx n) (m, es))
  | lose {n} (bound : n < c.net.length) :
      Steps codecs c (.lose n) { c with net := c.net.eraseIdx n }
  | connect {x i y m es}
      (replica : (c.node x).config.replicas[i]? = some (c.node y).config.address)
      (handle : (c.node x).handle codecs (.connected i) = some (m, es)) :
      Steps codecs c (.connect x i y) { c.advance x c.net (m, es) with
        accepted := Function.update c.accepted y (c.accepted y ++ [(x, i)])
        wire := Function.update c.wire x
          (Function.update (c.wire x) i (some (y, (c.accepted y).length))) }
  | run {x task m es} (handle : (c.node x).handle codecs task.event = some (m, es)) :
      Steps codecs c (.run x task)
        { c.advance x c.net (m, es) with acks := c.acks ++ ackedBy task (c.node x).writeStrand }

variable {D : Deployment ι} {codecs : Coordinator.Codecs} {c c' : Cluster ι}

/-- **Every step is of one of the kinds.** -/
theorem steps_of_step {a : Action ι} (h : c.step codecs a = some c') : Steps codecs c a c' := by
  cases a with
  | client x requestor msg stamp uuid =>
    simp only [step] at h
    split at h
    · next hunused =>
      obtain ⟨⟨m, es⟩, hhandle, rfl⟩ := Option.map_eq_some_iff.mp h
      exact .client hunused hhandle
    · cases h
  | deliver n =>
    simp only [step] at h
    split at h
    · cases h
    · next p hp =>
      split at h
      · next hnext =>
        obtain ⟨⟨m, es⟩, hhandle, rfl⟩ := Option.map_eq_some_iff.mp h
        exact .deliver hp hnext hhandle
      · cases h
  | lose n =>
    simp only [step] at h
    split at h
    · next hlt =>
      cases h
      exact .lose hlt
    · cases h
  | connect x i y =>
    simp only [step] at h
    split at h
    · next hreplica =>
      obtain ⟨⟨m, es⟩, hhandle, rfl⟩ := Option.map_eq_some_iff.mp h
      exact .connect hreplica hhandle
    · cases h
  | run x task =>
    obtain ⟨⟨m, es⟩, hhandle, rfl⟩ := Option.map_eq_some_iff.mp h
    exact .run hhandle

/-- A step lets one server handle an event, or none. -/
theorem node_of_step {a : Action ι} (hstep : c.step codecs a = some c') :
    c'.node = c.node ∨ ∃ y ev m es, (c.node y).handle codecs ev = some (m, es) ∧
      c'.node = Function.update c.node y m ∧ (ev = .runWrite → a = .run y .write) := by
  cases steps_of_step hstep with
  | client unused handle => exact Or.inr ⟨_, _, _, _, handle, rfl, fun hev => by cases hev⟩
  | connect replica handle => exact Or.inr ⟨_, _, _, _, handle, rfl, fun hev => by cases hev⟩
  | deliver get next handle => exact Or.inr ⟨_, _, _, _, handle, rfl, fun hev => by cases hev⟩
  | lose bound => exact Or.inl rfl
  | @run y task m es handle =>
    refine Or.inr ⟨_, _, _, _, handle, rfl, fun hev => ?_⟩
    -- only a write task is the event `runWrite`
    cases task with
    | write => rfl
    | _ => cases hev

/-- What holds of a server after an event and of the others before it holds of all after it. -/
theorem forall_node_of_update {P : ι → Coordinator → Prop} {x : ι} {m : Coordinator}
    (hnode : c'.node = Function.update c.node x m) (hm : P x m) (h : ∀ y, P y (c.node y)) :
    ∀ y, P y (c'.node y) := by
  rw [hnode]
  exact (Function.forall_update_iff _ _).mpr ⟨hm, fun y _ => h y⟩

/-! ## The event of a step -/

/-- The event that an action is, and the server that handles it. -/
def event (c : Cluster ι) : Action ι → Option (ι × Coordinator.Event)
  | .client x requestor msg stamp uuid => some (x, .client requestor msg stamp uuid)
  | .deliver n => (c.net[n]?).map fun p => (p.dst, .server p.chan p.msg)
  | .lose _ => none
  | .connect x i _ => some (x, .connected i)
  | .run x task => some (x, task.event)

/-- The put that an action is. -/
def putsOf : Action ι → List (Put ι)
  | .client x requestor msg stamp uuid => takenBy x requestor stamp uuid msg
  | _ => []

/-- **A step is an event of one server**, which sends, or the loss of a message. -/
theorem event_of_step {a : Action ι} (hstep : c.step codecs a = some c') :
    c.event a = none ∧ c'.node = c.node ∧ c'.puts = c.puts ∧ c'.net ⊆ c.net ∨
    ∃ x ev m es, c.event a = some (x, ev) ∧ (c.node x).handle codecs ev = some (m, es) ∧
      c'.node = Function.update c.node x m ∧ c'.puts = c.puts ++ putsOf a ∧
      ∀ p ∈ c'.net, p ∈ c.net ∨ ∃ e ∈ es, c.packet x e = some p := by
  -- what is on the way afterwards was on the way or is an effect of the handler
  have hsent : ∀ {x : ι} {net : List (Packet ι)} {es : List Effect}, net ⊆ c.net →
      ∀ p ∈ net ++ es.filterMap (c.packet x), p ∈ c.net ∨ ∃ e ∈ es, c.packet x e = some p :=
    fun hsub p hp => (List.mem_append.mp hp).imp (hsub ·) List.mem_filterMap.mp
  cases steps_of_step hstep with
  | client unused handle =>
    exact Or.inr ⟨_, _, _, _, rfl, handle, rfl, rfl, hsent (List.Subset.refl _)⟩
  | @deliver n p m es get next handle =>
    refine Or.inr ⟨p.dst, .server p.chan p.msg, m, es, ?_, handle, rfl, (List.append_nil _).symm,
      hsent (List.eraseIdx_subset ..)⟩
    rw [event, get]
    rfl
  | lose bound => exact Or.inl ⟨rfl, rfl, rfl, List.eraseIdx_subset ..⟩
  | connect replica handle =>
    exact Or.inr ⟨_, _, _, _, rfl, handle, rfl, (List.append_nil _).symm,
      hsent (List.Subset.refl _)⟩
  | run handle =>
    exact Or.inr ⟨_, _, _, _, rfl, handle, rfl, (List.append_nil _).symm,
      hsent (List.Subset.refl _)⟩

omit [DecidableEq ι] in
/-- A message that a server handles was on the way to it. -/
theorem mem_net_of_event {a : Action ι} {x : ι} {ch : Chan} {msg : ServerMessage}
    (h : c.event a = some (x, .server ch msg)) :
    ∃ p ∈ c.net, p.dst = x ∧ p.chan = ch ∧ p.msg = msg := by
  cases a with
  | deliver n =>
    obtain ⟨p, hp, heq⟩ := Option.map_eq_some_iff.mp h
    cases heq
    exact ⟨p, List.mem_of_getElem? hp, rfl, rfl, rfl⟩
  | run y task => cases task <;> cases h
  | _ => cases h

omit [DecidableEq ι] in
/-- A put that a server handles is one of its action. -/
theorem mem_putsOf_of_event {a : Action ι} {x : ι} {requestor : Client} {msg : PutKey}
    {stamp : Timestamp} {uuid : String}
    (h : c.event a = some (x, .client requestor (.putKey msg) stamp uuid)) :
    ⟨x, uuid, msg, requestor, stamp⟩ ∈ putsOf a := by
  cases a with
  | client y r m s u =>
    cases h
    exact List.mem_cons_self
  | deliver n =>
    obtain ⟨p, -, heq⟩ := Option.map_eq_some_iff.mp h
    cases heq
  | run y task => cases task <;> cases h
  | _ => cases h

/-! ## The connections -/

/-- The message is on a connection from its source. -/
def Leads (D : Deployment ι) (c : Cluster ι) (p : Packet ι) : Prop :=
  match p.chan with
  | .outgoing i => (D.config p.dst).replicas[i]? = some (D.config p.src).address
  | .accepted k => ∃ i, (c.accepted p.dst)[k]? = some (p.src, i)

/-- **The invariant of the connections.** -/
structure Wired (D : Deployment ι) (c : Cluster ι) : Prop where
  config : ∀ x, (c.node x).config = D.config x
  wire : ∀ {x y : ι} {i k : ℕ}, c.wire x i = some (y, k) → (c.accepted y)[k]? = some (x, i)
  accepted : ∀ {x y : ι} {i k : ℕ}, (c.accepted y)[k]? = some (x, i) →
    (D.config x).replicas[i]? = some (D.config y).address
  packets : ∀ p ∈ c.net, Leads D c p
  intros : ∀ p ∈ c.net, ∀ intro, p.msg = .intro intro →
    (intro.ip, toString intro.port.toNat) = (D.config p.src).address
  introduced : ∀ {y : ι} {k id : ℕ}, (c.node y).introduced k = some id →
    ∃ x i, (c.accepted y)[k]? = some (x, i) ∧
      (D.config y).replicas[id]? = some (D.config x).address

omit [DecidableEq ι] in
/-- At the start nothing is connected. -/
theorem wired_start (D : Deployment ι) (codec : Codec DoWrite) (old : ι → List DoWrite)
    (hintFile : ι → List UInt8) : Wired D (start D codec old hintFile) where
  config _ := rfl
  wire h := nomatch h
  accepted h := nomatch h
  packets _ h := nomatch h
  intros _ h := nomatch h
  introduced h := nomatch h

omit [DecidableEq ι] in
/-- **A handler knows the sender.** The number that goes with the channel of a message is that
of the server it comes from. -/
theorem Wired.sender (h : Wired D c) {p : Packet ι} (hp : p ∈ c.net) {id : ℕ}
    (hid : (c.node p.dst).idOf p.chan = some id) :
    (D.config p.dst).replicas[id]? = some (D.config p.src).address := by
  have hleads := h.packets p hp
  unfold Leads at hleads
  -- the number of an outgoing channel is fixed, that of an accepted one was found by address
  cases hchan : p.chan with
  | outgoing i =>
    rw [hchan] at hid hleads
    obtain rfl := Option.some.inj hid
    exact hleads
  | accepted k =>
    rw [hchan] at hid hleads
    obtain ⟨i, hi⟩ := hleads
    obtain ⟨x, j, hx, hreplica⟩ := h.introduced hid
    rw [hi] at hx
    obtain ⟨rfl, _⟩ := Prod.mk.inj (Option.some.inj hx)
    exact hreplica

/-- What a message of `x` becomes on the way. -/
theorem packet_eq_some {x : ι} {e : Effect} {p : Packet ι} (h : c.packet x e = some p) :
    ∃ ch, e = .send ch p.msg ∧ p.src = x ∧
      ((∃ i k, ch = .outgoing i ∧ p.chan = .accepted k ∧ c.wire x i = some (p.dst, k)) ∨
        ∃ i k, ch = .accepted k ∧ p.chan = .outgoing i ∧
          (c.accepted x)[k]? = some (p.dst, i)) := by
  cases e with
  | send ch msg =>
    cases ch with
    | outgoing i =>
      obtain ⟨⟨y, k⟩, hwire, rfl⟩ := Option.map_eq_some_iff.mp h
      exact ⟨_, rfl, rfl, Or.inl ⟨i, k, rfl, rfl, hwire⟩⟩
    | accepted k =>
      simp only [packet] at h
      split at h
      · cases h
      · next y i hacc =>
        split at h
        · obtain rfl := Option.some.inj h
          exact ⟨_, rfl, rfl, Or.inr ⟨i, k, rfl, rfl, hacc⟩⟩
        · cases h
  | reply client msg => cases h
  | report text => cases h

/-- A packet goes to the server that the channel leads to. -/
theorem Wired.leads (h : Wired D c) {x : ι} {e : Effect} {p : Packet ι}
    (hp : c.packet x e = some p) : Leads D c p := by
  obtain ⟨ch, _, hsrc, ⟨i, k, _, hchan, hwire⟩ | ⟨i, k, _, hchan, hacc⟩⟩ := packet_eq_some hp
  · rw [Leads, hchan, hsrc]
    exact ⟨i, h.wire hwire⟩
  · rw [Leads, hchan, hsrc]
    exact h.accepted hacc

/-- A server introduces itself only. -/
theorem intro_of_handles {codec : Codec DoWrite} {m m' : Coordinator} {ev : Coordinator.Event}
    {es : List Effect} (h : m.Handles codec ev m' es) {ch : Chan} {intro : Introduction}
    (hmem : .send ch (.intro intro) ∈ es) : intro = m.introduction := by
  -- only the handler of a connect sends one
  cases h with
  | put => cases hmem
  | introduce => cases hmem
  | doWrite =>
    split at hmem
    · cases hmem
    · cases List.mem_singleton.mp hmem
  | writeComplete => cases hmem
  | startWrite _ _ _ _ _ hreply =>
    rcases List.mem_append.mp hmem with hmem | hmem
    · rw [hreply] at hmem
      split at hmem
      · cases List.mem_singleton.mp hmem
      · cases hmem
    · obtain ⟨i, _, heq⟩ := List.mem_map.mp hmem
      cases heq
  | completeWrite _ _ _ _ _ _ hreply =>
    rw [hreply] at hmem
    split at hmem
    · cases List.mem_singleton.mp hmem
    · cases hmem
  | other _ _ _ _ _ _ aside => exact aside _ hmem

/-- An introduction says the address of its sender. -/
theorem introduction_address (m : Coordinator) :
    (m.introduction.ip, toString m.introduction.port.toNat) = m.config.address := by
  rw [Coordinator.introduction, Config.address, UInt16.toNat_toUInt32]

/-- A step of one server keeps the invariant; an introduction that it handles was on the way. -/
theorem Wired.advance (h : Wired D c) {x : ι} {ev : Coordinator.Event}
    {res : Coordinator × List Effect} (hhandle : (c.node x).handle codecs ev = some res)
    {net : List (Packet ι)} (hsub : net ⊆ c.net)
    (hintro : ∀ k intro, ev = .server (.accepted k) (.intro intro) →
      ∃ p ∈ c.net, p.dst = x ∧ p.chan = .accepted k ∧ p.msg = .intro intro) :
    Wired D (c.advance x net res) := by
  have hkind := Coordinator.handles_of_handle hhandle
  have hnode : ∀ y, (c.advance x net res).node y = if y = x then res.1 else c.node y := fun y =>
    Function.update_apply ..
  have hnet : ∀ p ∈ (c.advance x net res).net,
      p ∈ c.net ∨ ∃ e ∈ res.2, c.packet x e = some p := fun p hp =>
    (List.mem_append.mp hp).imp (hsub ·) List.mem_filterMap.mp
  refine ⟨fun y => ?_, h.wire, h.accepted, fun p hp => ?_, fun p hp intro hmsg => ?_,
    fun {y k id} hid => ?_⟩
  · rw [hnode]
    split
    · next heq => rw [hkind.config, heq, h.config]
    · exact h.config y
  · rcases hnet p hp with hp | ⟨e, _, he⟩
    · exact h.packets p hp
    · exact h.leads he
  · rcases hnet p hp with hp | ⟨e, hmem, he⟩
    · exact h.intros p hp intro hmsg
    · obtain ⟨ch, rfl, hsrc, _⟩ := packet_eq_some he
      rw [hmsg] at hmem
      rw [intro_of_handles hkind hmem, introduction_address, h.config, hsrc]
  · rw [hnode] at hid
    split at hid
    · next heq =>
      subst heq
      -- either no handler was bound, or the message was an introduction
      rcases hkind.introduced with hsame | ⟨j, intro, i, rfl, _, hfind, hupdate⟩
      · rw [hsame] at hid
        exact h.introduced hid
      · rw [hupdate] at hid
        by_cases hkj : k = j
        · subst hkj
          rw [Function.update_self] at hid
          obtain rfl := Option.some.inj hid
          obtain ⟨p, hp, rfl, hchan, hmsg⟩ := hintro k intro rfl
          have hleads := h.packets p hp
          rw [Leads, hchan] at hleads
          obtain ⟨j, hj⟩ := hleads
          refine ⟨p.src, j, hj, ?_⟩
          rw [h.config] at hfind
          rw [← h.intros p hp intro hmsg]
          obtain ⟨hlt, hfound, _⟩ := List.findIdx?_eq_some_iff_getElem.mp hfind
          rw [List.getElem?_eq_getElem hlt]
          simpa using hfound
        · rw [Function.update_of_ne hkj] at hid
          exact h.introduced hid
    · exact h.introduced hid

/-- A new connection. -/
theorem Wired.connect (h : Wired D c) {x y : ι} {i : ℕ}
    (hreplica : (D.config x).replicas[i]? = some (D.config y).address) :
    Wired D { c with
      accepted := Function.update c.accepted y (c.accepted y ++ [(x, i)])
      wire := Function.update c.wire x
        (Function.update (c.wire x) i (some (y, (c.accepted y).length))) } := by
  -- the connections there were keep their numbers
  have hold : ∀ {z w : ι} {j k : ℕ}, (c.accepted z)[k]? = some (w, j) →
      (Function.update c.accepted y (c.accepted y ++ [(x, i)]) z)[k]? = some (w, j) := by
    intro z w j k hk
    rw [Function.update_apply]
    split
    · next heq =>
      subst heq
      rw [List.getElem?_append_left (List.getElem?_eq_some_iff.mp hk).1, hk]
    · exact hk
  refine ⟨h.config, fun {z w j k} hwire => ?_, fun {z w j k} hacc => ?_, fun p hp => ?_, h.intros,
    fun {z k id} hid => ?_⟩
  · -- the channel that connects, or one that keeps its connection
    by_cases hzj : z = x ∧ j = i
    · obtain ⟨rfl, rfl⟩ := hzj
      simp only [Function.update_self, Option.some.injEq, Prod.mk.injEq] at hwire
      obtain ⟨rfl, rfl⟩ := hwire
      simp
    · refine hold (h.wire ?_)
      rw [← hwire]
      simp only [Function.update_apply]
      split
      · next hz =>
        subst hz
        rw [Function.update_of_ne fun hj => hzj ⟨rfl, hj⟩]
      · rfl
  · simp only [Function.update_apply] at hacc
    split at hacc
    · next heq =>
      subst heq
      rw [List.getElem?_append] at hacc
      split at hacc
      · exact h.accepted hacc
      · rw [List.getElem?_singleton] at hacc
        split at hacc
        · obtain ⟨rfl, rfl⟩ := Prod.mk.inj (Option.some.inj hacc)
          exact hreplica
        · cases hacc
    · exact h.accepted hacc
  · have hleads := h.packets p hp
    unfold Leads at hleads ⊢
    split
    · next heq =>
      rw [heq] at hleads
      exact hleads
    · next heq =>
      rw [heq] at hleads
      obtain ⟨j, hj⟩ := hleads
      exact ⟨j, hold hj⟩
  · obtain ⟨w, j, hacc, hreplica⟩ := h.introduced hid
    exact ⟨w, j, hold hacc, hreplica⟩

/-- **The invariant of the connections holds in every run.** -/
theorem Wired.step (h : Wired D c) {a : Action ι} (hstep : c.step codecs a = some c') :
    Wired D c' := by
  cases steps_of_step hstep with
  | client unused handle =>
    have hw := h.advance handle (List.Subset.refl c.net) fun k intro heq => by cases heq
    exact ⟨hw.config, hw.wire, hw.accepted, hw.packets, hw.intros, hw.introduced⟩
  | @deliver n p m es get next handle =>
    refine h.advance handle (List.eraseIdx_subset ..) fun k intro heq => ?_
    obtain ⟨hchan, hmsg⟩ := Coordinator.Event.server.inj heq
    exact ⟨p, List.mem_of_getElem? get, rfl, hchan, hmsg⟩
  | @lose n bound =>
    have hsub : c.net.eraseIdx n ⊆ c.net := List.eraseIdx_subset ..
    exact ⟨h.config, h.wire, h.accepted, fun p hp => h.packets p (hsub hp),
      fun p hp => h.intros p (hsub hp), h.introduced⟩
  | connect replica handle =>
    rw [h.config, h.config] at replica
    exact (h.advance handle (List.Subset.refl c.net) fun k intro heq => by cases heq).connect
      replica
  | @run x task m es handle =>
    have hw := h.advance handle (List.Subset.refl c.net) fun k intro heq => by
      cases task <;> cases heq
    exact ⟨hw.config, hw.wire, hw.accepted, hw.packets, hw.intros, hw.introduced⟩

end Cluster

end Cs457.Kv
