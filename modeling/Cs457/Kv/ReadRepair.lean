import Cs457.Kv.Versions
import Cs457.Kv.Cluster

/-!
# Key-value store — the messages of a read repair

A get in a cluster at rest, in read-repair mode, and what comes of it: the server asks its
replicas for their copies, compares each response with its own copy, and sends DoWrites. The get
itself may ask for copies too. Nothing else happens until all is handled.

* **`Repairing.step`** — the invariant: only such messages are on the way, between the server and
  its replicas, and only such tasks wait.
* **`RepairMoves`**, **`moves_of_step`** — the kinds of steps.
* **`RepairMoves.handled`**, **`RepairMoves.sends`** — what becomes of a message, and where one
  comes from.
-/

namespace Cs457.Kv

/-- A message of the get itself. -/
def ServerMessage.isRead : ServerMessage → Bool
  | .doRead _ => true
  | .readComplete _ => true
  | _ => false

/-- A message of a read carries no version. -/
theorem ServerMessage.carries_of_isRead {msg : ServerMessage} (h : msg.isRead = true) :
    msg.carries = none := by
  cases msg with
  | doWrite msg | readRepairResponse msg => cases h
  | _ => rfl

namespace Cluster

variable {ι : Type} {D : Deployment ι} {codecs : Coordinator.Codecs} {c c' : Cluster ι} {x : ι}
  {key : UInt32}

/-- A message is delivered or a task runs. -/
def Drains : Action ι → Prop
  | .deliver _ => True
  | .run _ _ => True
  | _ => False

instance (a : Action ι) : Decidable (Drains a) :=
  match a with
  | .deliver _ | .run _ _ => .isTrue trivial
  | .client .. | .lose _ | .connect .. => .isFalse id

/-- The message is from `x` to a replica of it. -/
def Outward (c : Cluster ι) (x : ι) (p : Packet ι) : Prop :=
  p.src = x ∧ ∃ i k, c.wire x i = some (p.dst, k) ∧ p.chan = .accepted k

/-- The message is from a replica of `x` to `x`. -/
def Homeward (c : Cluster ι) (x : ι) (p : Packet ι) : Prop :=
  p.dst = x ∧ ∃ i k, c.wire x i = some (p.src, k) ∧ p.chan = .outgoing i

/-- The stamp that a server holds for the key, zero if it holds nothing. -/
def stampOf (c : Cluster ι) (key : UInt32) (y : ι) : Timestamp := ((c.node y).copyOf key).timestamp

/-- The message is one of a get of the key at `x`. -/
def Fits (c : Cluster ι) (x : ι) (key : UInt32) (p : Packet ι) : Prop :=
  match p.msg with
  | .readRepair msg => c.Outward x p ∧ msg.key = key
  | .doWrite msg => c.Outward x p ∧ msg.uuid = "RR" ∧ msg.key = key
  | .doRead _ => c.Outward x p
  | .readRepairResponse msg => c.Homeward x p ∧ msg.key = key
  | .readComplete _ => c.Homeward x p
  | _ => False

/-- The tasks of the server `y` are those of a get of the key at `x`. -/
structure Waits (x : ι) (key : UInt32) (y : ι) (m : Coordinator) : Prop where
  replays : LogTask.replay ∉ m.replica.strand
  hints : m.hintStrand = []
  writes : m.writeStrand = []
  posted : ∀ t ∈ m.posted, y = x ∧ t = .readRepair key
  reads : y ≠ x → m.readStrand = []

/-- **The invariant of the messages and the tasks.** -/
structure Repairing (D : Deployment ι) (x : ι) (key : UInt32) (c : Cluster ι) : Prop where
  wired : Wired D c
  messages : ∀ p ∈ c.net, c.Fits x key p
  tasks : ∀ y, Waits x key y (c.node y)

/-! ## Connections -/

/-- A server is not its own replica. -/
theorem Wired.wire_ne (h : Wired D c) {y : ι} {i k : ℕ} (hwire : c.wire x i = some (y, k)) :
    y ≠ x := by
  rintro rfl
  exact D.others y (List.mem_of_getElem? (h.accepted (h.wire hwire)))

/-- A replica that `x` is connected to answers on the same connection. -/
theorem Wired.packet_back (h : Wired D c) [DecidableEq ι] {y : ι} {i k : ℕ}
    (hwire : c.wire x i = some (y, k)) (msg : ServerMessage) :
    c.packet y (.send (.accepted k) msg) = some ⟨y, x, .outgoing i, msg⟩ := by
  simp only [packet, h.wire hwire]
  exact if_pos hwire

/-- A message to a replica goes to the server that it is connected to. -/
theorem packet_out [DecidableEq ι] {y : ι} {i k : ℕ} (hwire : c.wire x i = some (y, k))
    (msg : ServerMessage) :
    c.packet x (.send (.outgoing i) msg) = some ⟨x, y, .accepted k, msg⟩ := by
  simp only [packet, hwire]
  rfl

/-- The messages of a broadcast. -/
theorem mem_broadcast [DecidableEq ι] {msg : ServerMessage} {p : Packet ι} :
    p ∈ ((c.node x).broadcast msg).filterMap (c.packet x) ↔
      ∃ i < (c.node x).config.replicas.length, ∃ y k, c.wire x i = some (y, k) ∧
        p = ⟨x, y, .accepted k, msg⟩ := by
  rw [List.mem_filterMap]
  constructor
  · rintro ⟨e, he, hpacket⟩
    obtain ⟨i, hi, rfl⟩ := List.mem_map.mp he
    obtain ⟨⟨y, k⟩, hwire, rfl⟩ := Option.map_eq_some_iff.mp hpacket
    exact ⟨i, List.mem_range.mp hi, y, k, hwire, rfl⟩
  · rintro ⟨i, hi, y, k, hwire, rfl⟩
    exact ⟨_, List.mem_map_of_mem (List.mem_range.mpr hi), packet_out hwire msg⟩

/-- A broadcast goes out to the replicas. -/
theorem outward_broadcast [DecidableEq ι] {msg : ServerMessage} {p : Packet ι}
    (h : p ∈ ((c.node x).broadcast msg).filterMap (c.packet x)) : c.Outward x p ∧ p.msg = msg := by
  obtain ⟨i, -, y, k, hwire, rfl⟩ := mem_broadcast.mp h
  exact ⟨⟨rfl, i, k, hwire, rfl⟩, rfl⟩

/-! ## The kinds of steps -/

variable [DecidableEq ι]

/-- A step of a read repair, with what changes. -/
inductive RepairMoves (codec : Codec DoWrite) (x : ι) (key : UInt32) (c c' : Cluster ι) : Prop
  | log {y replica} (task : (c.node y).replica.runTask codec = some replica)
      (node : c'.node = Function.update c.node y { c.node y with replica := replica })
      (net : c'.net = c.net)
  | asks {n} (task : (c.node x).posted[n]? = some (.readRepair key))
      (node : c'.node = Function.update c.node x
        { c.node x with posted := (c.node x).posted.eraseIdx n })
      (net : c'.net = c.net ++
        ((c.node x).broadcast (.readRepair ⟨key⟩)).filterMap (c.packet x))
  | reads {y m} (node : c'.node = Function.update c.node y m)
      (replica : m.replica = (c.node y).replica) (hints : m.hintStrand = (c.node y).hintStrand)
      (writes : m.writeStrand = (c.node y).writeStrand) (posted : m.posted = (c.node y).posted)
      (own : y ≠ x → m = c.node y)
      (kept : ∀ p ∈ c.net, p.msg.isRead = false → p ∈ c'.net)
      (fresh : ∀ p ∈ c'.net, p ∈ c.net ∨ c.Fits x key p ∧ p.msg.isRead = true)
  | answers {n p i k} (get : c.net[n]? = some p) (msg : p.msg = .readRepair ⟨key⟩)
      (wire : c.wire x i = some (p.dst, k)) (node : c'.node = c.node)
      (net : c'.net = c.net.eraseIdx n ++ [⟨p.dst, x, .outgoing i, .readRepairResponse
        ⟨key, ((c.node p.dst).copyOf key).timestamp, ((c.node p.dst).copyOf key).data⟩⟩])
  | takes {n p msg replica} (get : c.net[n]? = some p) (doWrite : p.msg = .doWrite msg)
      (other : p.dst ≠ x) (forKey : msg.key = key)
      (write : (c.node p.dst).replica.write key msg.val msg.timestamp = .ok replica)
      (node : c'.node = Function.update c.node p.dst { c.node p.dst with replica := replica })
      (net : c'.net = c.net.eraseIdx n)
  | newer {n p msg replica} (get : c.net[n]? = some p) (response : p.msg = .readRepairResponse msg)
      (forKey : msg.key = key)
      (newer : ∀ copy ∈ (c.node x).replica.store key, copy.timestamp < msg.timestamp)
      (write : (c.node x).replica.write key msg.val msg.timestamp = .ok replica)
      (node : c'.node = Function.update c.node x { c.node x with replica := replica })
      (net : c'.net = c.net.eraseIdx n ++ ((c.node x).broadcast
        (.doWrite ⟨"RR", key, msg.timestamp, msg.val⟩)).filterMap (c.packet x))
  | older {n p msg copy i k} (get : c.net[n]? = some p) (response : p.msg = .readRepairResponse msg)
      (held : (c.node x).replica.store key = some copy) (notNewer : msg.timestamp ≤ copy.timestamp)
      (wire : c.wire x i = some (p.src, k)) (node : c'.node = c.node)
      (net : c'.net = c.net.eraseIdx n ++ [⟨x, p.src, .accepted k,
        .doWrite ⟨"RR", key, copy.timestamp, copy.data⟩⟩])
  | same {n p msg copy} (get : c.net[n]? = some p) (response : p.msg = .readRepairResponse msg)
      (held : (c.node x).replica.store key = some copy) (stamp : msg.timestamp = copy.timestamp)
      (node : c'.node = c.node) (net : c'.net = c.net.eraseIdx n)

omit [DecidableEq ι] in
/-- What is not taken stays. -/
theorem mem_eraseIdx_of_ne {n : ℕ} {p q : Packet ι} (hget : c.net[n]? = some p) (hq : q ∈ c.net)
    (hne : q ≠ p) : q ∈ c.net.eraseIdx n := by
  obtain ⟨hlt, rfl⟩ := List.getElem?_eq_some_iff.mp hget
  have hperm := List.getElem_cons_eraseIdx_perm hlt
  exact (List.mem_cons.mp (hperm.mem_iff.mpr hq)).resolve_left hne

/-- The delivery of a message of the server to a replica. -/
theorem Repairing.moves_outward (h : Repairing D x key c) {n : ℕ} {p : Packet ι}
    (hget : c.net[n]? = some p) (hout : c.Outward x p) {m : Coordinator} {es : List Effect}
    (hhandle : (c.node p.dst).handle codecs (.server p.chan p.msg) = some (m, es))
    (hnode : c'.node = Function.update c.node p.dst m)
    (hnet : c'.net = c.net.eraseIdx n ++ es.filterMap (c.packet p.dst)) :
    RepairMoves codecs.replica x key c c' := by
  have hfits := h.messages p (List.mem_of_getElem? hget)
  obtain ⟨src, dst, chan, msg⟩ := p
  obtain ⟨rfl, i, k, hwire, rfl⟩ := hout
  have hne := h.wired.wire_ne hwire
  cases msg with
  | readRepair msg =>
    -- the replica answers on the connection that the question came on
    obtain ⟨-, rfl⟩ := hfits
    cases Coordinator.acts_of_handle hhandle with
    | readRepair sender hkey =>
      refine .answers hget rfl hwire (hnode.trans (Function.update_eq_self ..)) (hnet.trans ?_)
      rw [List.filterMap_cons_some (h.wired.packet_back hwire _)]
      rfl
  | doWrite msg =>
    obtain ⟨-, huuid, rfl⟩ := hfits
    cases Coordinator.acts_of_handle hhandle with
    | doWrite sender write =>
      refine .takes hget rfl hne rfl write hnode (hnet.trans ?_)
      -- a DoWrite of a repair is not acknowledged
      rw [if_pos huuid]
      exact List.append_nil _
  | doRead msg =>
    cases Coordinator.acts_of_handle hhandle with
    | doRead sender hkey =>
      rw [List.filterMap_cons_some (h.wired.packet_back hwire _), List.filterMap_nil] at hnet
      refine .reads hnode rfl rfl rfl rfl (fun _ => rfl) (fun q hq hread => ?_) (fun q hq => ?_)
      · rw [hnet]
        -- only the DoRead leaves, which is a message of the get
        refine List.mem_append_left _ (mem_eraseIdx_of_ne hget hq ?_)
        rintro rfl
        cases hread
      · rw [hnet] at hq
        rcases List.mem_append.mp hq with hold | hnew
        · exact Or.inl ((List.eraseIdx_subset ..) hold)
        · rw [List.mem_singleton.mp hnew]
          exact Or.inr ⟨⟨rfl, i, k, hwire, rfl⟩, rfl⟩
  -- these go the other way, and no server is its own replica
  | readRepairResponse msg => exact absurd hfits.1.1 hne
  | readComplete msg => exact absurd hfits.1 hne
  | _ => exact hfits.elim

/-- The delivery of a message of a replica to the server. -/
theorem Repairing.moves_homeward (h : Repairing D x key c) {n : ℕ} {p : Packet ι}
    (hget : c.net[n]? = some p) (hhome : c.Homeward x p) {m : Coordinator} {es : List Effect}
    (hhandle : (c.node p.dst).handle codecs (.server p.chan p.msg) = some (m, es))
    (hnode : c'.node = Function.update c.node p.dst m)
    (hnet : c'.net = c.net.eraseIdx n ++ es.filterMap (c.packet p.dst)) :
    RepairMoves codecs.replica x key c c' := by
  have hfits := h.messages p (List.mem_of_getElem? hget)
  obtain ⟨src, dst, chan, msg⟩ := p
  obtain ⟨rfl, i, k, hwire, rfl⟩ := hhome
  have hne := h.wired.wire_ne hwire
  cases msg with
  | readRepairResponse msg =>
    obtain ⟨-, rfl⟩ := hfits
    cases Coordinator.acts_of_handle hhandle with
    | repairNewer sender newer write => exact .newer hget rfl rfl newer write hnode hnet
    | repairOlder sender hkey held notNewer differs =>
      refine .older hget rfl held notNewer hwire (hnode.trans (Function.update_eq_self ..))
        (hnet.trans ?_)
      rw [List.filterMap_cons_some (packet_out hwire _)]
      rfl
    | repairSame sender hkey held stamp data =>
      exact .same hget rfl held stamp (hnode.trans (Function.update_eq_self ..))
        (hnet.trans (List.append_nil _))
  | readComplete msg =>
    cases Coordinator.acts_of_handle hhandle with
    | readComplete sender =>
      rw [List.filterMap_nil, List.append_nil] at hnet
      refine .reads hnode rfl rfl rfl rfl (fun hother => absurd rfl hother) (fun q hq hread => ?_)
        (fun q hq => ?_)
      · rw [hnet]
        refine mem_eraseIdx_of_ne hget hq ?_
        rintro rfl
        cases hread
      · rw [hnet] at hq
        exact Or.inl ((List.eraseIdx_subset ..) hq)
  -- requests go from `x` to the replicas only
  | readRepair msg => exact absurd hfits.1.1 hne
  | doWrite msg => exact absurd hfits.1.1 hne
  | doRead msg => exact absurd hfits.1 hne
  | _ => exact hfits.elim

/-- A task of a server. -/
theorem Repairing.moves_run (h : Repairing D x key c) {y : ι} {task : Task} {m : Coordinator}
    {es : List Effect} (hhandle : (c.node y).handle codecs task.event = some (m, es))
    (hnode : c'.node = Function.update c.node y m)
    (hnet : c'.net = c.net ++ es.filterMap (c.packet y)) :
      RepairMoves codecs.replica x key c c' := by
  cases task with
  | log =>
    cases Coordinator.acts_of_handle hhandle with
    | runLog task => exact .log task hnode (hnet.trans (List.append_nil _))
  | hint =>
    cases Coordinator.acts_of_handle hhandle with
    | runHint head perform =>
      -- no hint and no write waits anywhere
      rw [(h.tasks y).hints] at head
      cases head
  | write =>
    cases Coordinator.acts_of_handle hhandle with
    | startWrite head =>
      rw [(h.tasks y).writes] at head
      cases head
    | completeWrite head found =>
      rw [(h.tasks y).writes] at head
      cases head
  | read uuid =>
    have hy : (c.node y).readStrand ≠ [] → y = x := fun hne => by
      by_contra hyx
      exact hne ((h.tasks y).reads hyx)
    cases Coordinator.acts_of_handle hhandle with
    | startRead head =>
      -- only the server that answers the get has tasks in its read strand
      obtain rfl := hy (by rw [head]; exact List.cons_ne_nil _ _)
      refine .reads hnode rfl rfl rfl rfl (fun hother => absurd rfl hother) (fun q hq _ => ?_)
        (fun q hq => ?_)
      · rw [hnet]
        exact List.mem_append_left _ hq
      · rw [hnet] at hq
        refine (List.mem_append.mp hq).imp_right fun hnew => ?_
        obtain ⟨hout, hmsg⟩ := outward_broadcast hnew
        constructor
        · rw [Fits, hmsg]
          exact hout
        · rw [hmsg]
          rfl
    | completeRead head found early =>
      obtain rfl := hy (by rw [head]; exact List.cons_ne_nil _ _)
      rw [List.filterMap_nil, List.append_nil] at hnet
      exact .reads hnode rfl rfl rfl rfl (fun hother => absurd rfl hother)
        (fun q hq _ => hnet ▸ hq) (fun q hq => Or.inl (hnet ▸ hq))
    | answerRead head found last chosen =>
      obtain rfl := hy (by rw [head]; exact List.cons_ne_nil _ _)
      have hnet' : c'.net = c.net := hnet.trans (List.append_nil _)
      exact .reads hnode rfl rfl rfl rfl (fun hother => absurd rfl hother)
        (fun q hq _ => hnet' ▸ hq) (fun q hq => Or.inl (hnet' ▸ hq))
  | posted n =>
    cases Coordinator.acts_of_handle hhandle with
    | repair task =>
      obtain ⟨rfl, heq⟩ := (h.tasks y).posted _ (List.mem_of_getElem? task)
      obtain rfl := IoTask.readRepair.inj heq
      exact .asks task hnode hnet
    | reconnected task bound =>
      obtain ⟨-, heq⟩ := (h.tasks y).posted _ (List.mem_of_getElem? task)
      cases heq

omit [DecidableEq ι] in
/-- Every message of a get goes one of the two ways. -/
theorem Fits.way {p : Packet ι} (h : c.Fits x key p) : c.Outward x p ∨ c.Homeward x p := by
  unfold Fits at h
  split at h
  · exact Or.inl h.1
  · exact Or.inl h.1
  · exact Or.inl h
  · exact Or.inr h.1
  · exact Or.inr h
  · exact h.elim

/-- **Every step is of one of the kinds.** -/
theorem Repairing.moves_of_step (h : Repairing D x key c) {a : Action ι} (ha : Drains a)
    (hstep : c.step codecs a = some c') : RepairMoves codecs.replica x key c c' ∧
      c'.wire = c.wire := by
  cases steps_of_step hstep with
  | @deliver n p m es get next handle =>
    refine ⟨?_, rfl⟩
    rcases (h.messages p (List.mem_of_getElem? get)).way with hout | hhome
    · exact h.moves_outward get hout handle rfl rfl
    · exact h.moves_homeward get hhome handle rfl rfl
  | run handle => exact ⟨h.moves_run handle rfl rfl, rfl⟩
  | client | lose | connect => exact ha.elim

/-! ## What becomes of tasks and messages -/

variable {codec : Codec DoWrite}

/-- The task of the get stays, or it has run. -/
theorem RepairMoves.posted (h : RepairMoves codec x key c c')
    (hposted : .readRepair key ∈ (c.node x).posted) : .readRepair key ∈ (c'.node x).posted ∨
      ((c.node x).broadcast (.readRepair ⟨key⟩)).filterMap (c.packet x) ⊆ c'.net := by
  have hupdate : ∀ {z : ι} {m : Coordinator}, c'.node = Function.update c.node z m →
      m.posted = (c.node z).posted →
      IoTask.readRepair key ∈ (c'.node x).posted := fun hnode hm => by
    have hsame := forall_node_of_update (P := fun y m => m.posted = (c.node y).posted) hnode hm
      (fun _ => rfl) x
    rw [hsame]
    exact hposted
  cases h with
  | asks task node net =>
    right
    rw [net]
    exact List.subset_append_right _ _
  | log task node net => exact Or.inl (hupdate node rfl)
  | reads node replica hints writes posted own kept fresh => exact Or.inl (hupdate node posted)
  | answers get msg wire node net | older get response held notNewer wire node net
  | same get response held stamp node net =>
    rw [node]
    exact Or.inl hposted
  | takes get doWrite other forKey write node net => exact Or.inl (hupdate node rfl)
  | newer get response forKey newer write node net => exact Or.inl (hupdate node rfl)

/-- What the server does with a response: it takes the version in, or it sends its own copy, or
the two have the same stamp. -/
inductive Heard (x : ι) (key : UInt32) (c c' : Cluster ι) (src : ι) (msg : ReadRepairResponse) :
    Prop
  | newer (newer : ∀ copy ∈ (c.node x).replica.store key, copy.timestamp < msg.timestamp)
      (write : (c.node x).replica.write key msg.val msg.timestamp = .ok (c'.node x).replica)
  | older {copy p} (held : (c.node x).replica.store key = some copy)
      (notNewer : msg.timestamp ≤ copy.timestamp) (sent : p ∈ c'.net) (dst : p.dst = src)
      (doWrite : p.msg = .doWrite ⟨"RR", key, copy.timestamp, copy.data⟩)
  | same {copy} (held : (c.node x).replica.store key = some copy)
      (stamp : msg.timestamp = copy.timestamp)

/-- What becomes of a message that a step delivers. -/
inductive Handled (x : ι) (key : UInt32) (c c' : Cluster ι) (q : Packet ι) : Prop
  | read (read : q.msg.isRead = true)
  | answered {r data} (repair : q.msg = .readRepair ⟨key⟩) (sent : r ∈ c'.net) (src : r.src = q.dst)
      (response : r.msg = .readRepairResponse ⟨key, c.stampOf key q.dst, data⟩)
  | written {msg} (doWrite : q.msg = .doWrite msg)
      (write : (c.node q.dst).replica.write key msg.val msg.timestamp = .ok (c'.node q.dst).replica)
  | heard {msg} (response : q.msg = .readRepairResponse msg) (heard : Heard x key c c' q.src msg)

/-- **A message stays on the way, or it has been handled.** -/
theorem RepairMoves.handled (h : RepairMoves codec x key c c') {q : Packet ι} (hq : q ∈ c.net) :
    q ∈ c'.net ∨ Handled x key c c' q := by
  cases h with
  | log task node net => exact Or.inl (net ▸ hq)
  | asks task node net =>
    rw [net]
    exact Or.inl (List.mem_append_left _ hq)
  | reads node replica hints writes posted own kept fresh =>
    cases hread : q.msg.isRead with
    | true => exact Or.inr (.read hread)
    | false => exact Or.inl (kept q hq hread)
  | @answers n p i k get repair wire node net =>
    -- the delivered message is handled, any other one stays where it was
    by_cases hqp : q = p
    · subst hqp
      have hsent : ⟨q.dst, x, .outgoing i, .readRepairResponse
          ⟨key, c.stampOf key q.dst, ((c.node q.dst).copyOf key).data⟩⟩ ∈ c'.net := by
        rw [net]
        exact List.mem_append_right _ List.mem_cons_self
      exact Or.inr (.answered repair hsent rfl rfl)
    · rw [net]
      exact Or.inl (List.mem_append_left _ (mem_eraseIdx_of_ne get hq hqp))
  | @takes n p msg replica get doWrite other forKey write node net =>
    by_cases hqp : q = p
    · subst hqp
      refine Or.inr (.written doWrite ?_)
      rw [node, Function.update_self]
      exact write
    · rw [net]
      exact Or.inl (mem_eraseIdx_of_ne get hq hqp)
  | @newer n p msg replica get response forKey newer write node net =>
    by_cases hqp : q = p
    · subst hqp
      refine Or.inr (.heard response (.newer newer ?_))
      rw [node, Function.update_self]
      exact write
    · rw [net]
      exact Or.inl (List.mem_append_left _ (mem_eraseIdx_of_ne get hq hqp))
  | @older n p msg copy i k get response held notNewer wire node net =>
    by_cases hqp : q = p
    · subst hqp
      have hsent : ⟨x, q.src, .accepted k, .doWrite ⟨"RR", key, copy.timestamp, copy.data⟩⟩
          ∈ c'.net := by
        rw [net]
        exact List.mem_append_right _ List.mem_cons_self
      exact Or.inr (.heard response (.older held notNewer hsent rfl rfl))
    · rw [net]
      exact Or.inl (List.mem_append_left _ (mem_eraseIdx_of_ne get hq hqp))
  | @same n p msg copy get response held stamp node net =>
    by_cases hqp : q = p
    · subst hqp
      exact Or.inr (.heard response (.same held stamp))
    · rw [net]
      exact Or.inl (mem_eraseIdx_of_ne get hq hqp)

/-- What a step sends. -/
inductive Sends (x : ι) (key : UInt32) (c : Cluster ι) (q : Packet ι) : Prop
  | asks (out : c.Outward x q) (repair : q.msg = .readRepair ⟨key⟩)
  | reads (fits : c.Fits x key q) (read : q.msg.isRead = true)
  | answers {data} (home : c.Homeward x q)
      (response : q.msg = .readRepairResponse ⟨key, c.stampOf key q.src, data⟩)
  | passesOn {p msg} (mem : p ∈ c.net) (response : p.msg = .readRepairResponse msg)
      (forKey : msg.key = key) (out : c.Outward x q)
      (doWrite : q.msg = .doWrite ⟨"RR", key, msg.timestamp, msg.val⟩)
  | copies {copy} (held : (c.node x).replica.store key = some copy) (out : c.Outward x q)
      (doWrite : q.msg = .doWrite ⟨"RR", key, copy.timestamp, copy.data⟩)

/-- **A message was on the way, or it has been sent.** -/
theorem RepairMoves.sends (h : RepairMoves codec x key c c') {q : Packet ι} (hq : q ∈ c'.net) :
    q ∈ c.net ∨ Sends x key c q := by
  have hold : ∀ {n : ℕ} {ps : List (Packet ι)}, q ∈ c.net.eraseIdx n ++ ps →
      (q ∈ ps → Sends x key c q) → q ∈ c.net ∨ Sends x key c q := fun hq hnew =>
    (List.mem_append.mp hq).imp (fun hq => (List.eraseIdx_subset ..) hq) hnew
  cases h with
  | log task node net => exact Or.inl (net ▸ hq)
  | asks task node net =>
    rw [net] at hq
    refine (List.mem_append.mp hq).imp_right fun hnew => ?_
    -- `broadcast` writes to the outgoing channels only
    obtain ⟨hout, hmsg⟩ := outward_broadcast hnew
    exact .asks hout hmsg
  | reads node replica hints writes posted own kept fresh =>
    exact (fresh q hq).imp_right fun ⟨hfits, hread⟩ => .reads hfits hread
  | answers get msg wire node net =>
    refine hold (net ▸ hq) fun hnew => ?_
    obtain rfl := List.mem_singleton.mp hnew
    exact .answers ⟨rfl, _, _, wire, rfl⟩ rfl
  | takes get doWrite other forKey write node net =>
    exact Or.inl ((List.eraseIdx_subset ..) (net ▸ hq))
  | newer get response forKey newer write node net =>
    refine hold (net ▸ hq) fun hnew => ?_
    obtain ⟨hout, hmsg⟩ := outward_broadcast hnew
    exact .passesOn (List.mem_of_getElem? get) response forKey hout hmsg
  | older get response held notNewer wire node net =>
    refine hold (net ▸ hq) fun hnew => ?_
    obtain rfl := List.mem_singleton.mp hnew
    exact .copies held ⟨rfl, _, _, wire, rfl⟩ rfl
  | same get response held stamp node net =>
    exact Or.inl ((List.eraseIdx_subset ..) (net ▸ hq))

/-! ## The invariant -/

omit [DecidableEq ι] in
theorem Fits.of_wire {p : Packet ι} (h : c.Fits x key p) (hwire : c'.wire = c.wire) :
    c'.Fits x key p := by
  unfold Fits Outward Homeward at h ⊢
  rw [hwire]
  exact h

omit [DecidableEq ι] in
theorem Waits.write {y : ι} {m : Coordinator} (h : Waits x key y m) {k : UInt32} {data : String}
    {timestamp : Timestamp} {r : Replica} (hwrite : m.replica.write k data timestamp = .ok r) :
    Waits x key y { m with replica := r } := by
  refine ⟨?_, h.hints, h.writes, h.posted, h.reads⟩
  -- a write posts an update or nothing, never a replay
  obtain ⟨-, ⟨-, rfl⟩ | ⟨-, rfl⟩⟩ := Replica.write_ok hwrite
  · exact h.replays
  · show LogTask.replay ∉ m.replica.strand ++ _
    rw [List.mem_append, List.mem_singleton]
    rintro (hold | hnew)
    · exact h.replays hold
    · cases hnew

omit [DecidableEq ι] in
theorem Waits.runTask {y : ι} {m : Coordinator} (h : Waits x key y m) {codec : Codec DoWrite}
    {r : Replica} (htask : m.replica.runTask codec = some r) :
    Waits x key y { m with replica := r } := by
  have hreplays : m.replica.Replays codec fun _ => True := Or.inl h.replays
  exact ⟨hreplays.runTask htask, h.hints, h.writes, h.posted, h.reads⟩

/-- The tasks that wait after a step. -/
theorem RepairMoves.tasks (hmove : RepairMoves codec x key c c')
    (h : ∀ y, Waits x key y (c.node y)) : ∀ y, Waits x key y (c'.node y) := by
  -- Each move concerns one server; what the others wait for is as before.
  cases hmove with
  | log task node net => exact forall_node_of_update node ((h _).runTask task) h
  | asks task node net =>
    have hx := h x
    refine forall_node_of_update node ?_ h
    exact ⟨hx.replays, hx.hints, hx.writes,
      fun t ht => hx.posted t ((List.eraseIdx_subset ..) ht), hx.reads⟩
  | @reads z m node replica hints writes posted own kept fresh =>
    have hz := h z
    refine forall_node_of_update node ⟨?_, hints.trans hz.hints, writes.trans hz.writes, ?_,
      fun hother => ?_⟩ h
    · rw [replica]
      exact hz.replays
    · rw [posted]
      exact hz.posted
    · rw [own hother]
      exact hz.reads hother
  | answers get msg wire node net | older get response held notNewer wire node net
  | same get response held stamp node net =>
    rw [node]
    exact h
  | takes get doWrite other forKey write node net =>
    exact forall_node_of_update node ((h _).write write) h
  | newer get response forKey newer write node net =>
    exact forall_node_of_update node ((h _).write write) h

/-- The messages on the way after a step. -/
theorem RepairMoves.messages (hmove : RepairMoves codec x key c c')
    (h : ∀ p ∈ c.net, c.Fits x key p) : ∀ p ∈ c'.net, c.Fits x key p := by
  intro q hq
  rcases hmove.sends hq with hold | hsends
  · exact h q hold
  · cases hsends with
    | reads fits read => exact fits
    | asks out hmsg =>
      rw [Fits, hmsg]
      exact ⟨out, rfl⟩
    | answers home hmsg =>
      rw [Fits, hmsg]
      exact ⟨home, rfl⟩
    | passesOn mem response forKey out hmsg | copies held out hmsg =>
      rw [Fits, hmsg]
      exact ⟨out, rfl, rfl⟩

/-- **One step.** -/
theorem Repairing.step (h : Repairing D x key c) {a : Action ι} (ha : Drains a)
    (hstep : c.step codecs a = some c') : Repairing D x key c' := by
  obtain ⟨hmove, hwire⟩ := h.moves_of_step ha hstep
  exact ⟨h.wired.step hstep, fun p hp => (hmove.messages h.messages p hp).of_wire hwire,
    hmove.tasks h.tasks⟩

end Cluster

end Cs457.Kv
