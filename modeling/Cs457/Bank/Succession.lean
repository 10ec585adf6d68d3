import Cs457.Bank.SnapshotSimulation

/-!
# Bank — one snapshot after another

The controller asks for a snapshot every fifteen seconds and does not wait until one is
complete. A branch keeps its latest snapshot only, so a Marker of an earlier id that arrives
over a slow channel looks like the first Marker of a new one.

* **`Inspection.step`** — the branches, the two timers of the controller, and the history of the
  snapshots created and the Markers sent.
* **`Branch.perform_creates`** — what a task creates and sends.
* **`Steady.step`** — a connected cluster stays connected.
* **`one_snapshot_per_id_iff`** — when every branch creates one snapshot for an id.
-/

namespace Cs457.Bank

open Transition

/-! ## The snapshots that are created -/

/-- The id of the snapshot that a task creates. -/
def Branch.creates (b : Branch) : Task → Option UInt64
  | .initSnapshot id => some id
  | .marker id _ => if b.snapshot.map Snapshot.id = some id then none else some id
  | _ => none

/-- The id of `d_snapshot`. -/
def Branch.heldId (b : Branch) : Option UInt64 := b.snapshot.map Snapshot.id

/-- The Markers among the effects of a task. -/
def markers (es : List Effect) : List (Channel × UInt64) :=
  es.filterMap fun e => match e with
    | .send ch (.marker id) => some (ch, id)
    | _ => none

namespace Cluster

/-- The snapshot that a step creates, with its branch. -/
def creates (c : Cluster) : Action → List (Name × UInt64)
  | .runTask p => match (c.branch p).strand with
    | [] => []
    | t :: _ => ((c.branch p).creates t).toList.map fun id => (p, id)
  | _ => []

/-- The Markers that a step sends. -/
def marks (c : Cluster) : Action → List (Channel × UInt64)
  | .runTask p => match (c.branch p).strand with
    | [] => []
    | t :: rest => match ({ c.branch p with strand := rest } : Branch).perform t with
      | .ok r => markers r.2
      | .error _ => []
  | _ => []

end Cluster

/-! ## The controller's timers -/

/-- The branches and the controller: `peers` are the branches behind its `d_channels`,
`snapshotId` is `d_snapshot_id`, and the timer that runs is that of `do_retrieve_snapshot` or
else that of `do_snapshot`. `created` and `marked` are history: the snapshots created so far and
the Markers sent so far. -/
structure Inspection where
  cluster : Cluster
  peers : List Name
  snapshotId : UInt64 := 1
  retrieving : Bool := false
  created : List (Name × UInt64) := []
  marked : List (Channel × UInt64) := []

inductive InspectionAction where
  /-- the timer of `do_snapshot` expires and `which` is the branch `p` -/
  | doSnapshot (p : Name)
  /-- the timer of `do_retrieve_snapshot` expires -/
  | doRetrieveSnapshot
  /-- a step of the branches -/
  | branches (a : Action)
  deriving DecidableEq, Repr

/-- The step is one of the branches. -/
def Action.Within (peers : List Name) : Action → Prop
  | .controllerSend _ _ => False
  | .connect _ _ => True
  | .accept p _ => p ∈ peers
  | .deliver ch => ∃ p ∈ peers, ch.host = some p
  | .runTask p => p ∈ peers
  | .sendMoney p _ _ => p ∈ peers

instance Action.decidableWithin (peers : List Name) : DecidablePred (Action.Within peers)
  | .controllerSend _ _ => inferInstanceAs (Decidable False)
  | .connect _ _ => inferInstanceAs (Decidable True)
  | .accept p _ => inferInstanceAs (Decidable (p ∈ peers))
  | .deliver ch => inferInstanceAs (Decidable (∃ p ∈ peers, ch.host = some p))
  | .runTask p => inferInstanceAs (Decidable (p ∈ peers))
  | .sendMoney p _ _ => inferInstanceAs (Decidable (p ∈ peers))

namespace Inspection

/-- The controller sends `msg` on its connection to `p`. -/
def ask (msg : BranchMessage) (c : Cluster) (p : Name) : Cluster :=
  c.send ⟨.controller p, .opener⟩ msg

def step (s : Inspection) : InspectionAction → Option Inspection
  | .doSnapshot p =>
    if s.retrieving = false ∧ p ∈ s.peers then
      some { s with
        cluster := ask (.initSnapshot s.snapshotId) s.cluster p
        retrieving := true }
    else none
  | .doRetrieveSnapshot =>
    if s.retrieving then
      some { s with
        cluster := s.peers.foldl (ask (.retrieveSnapshot s.snapshotId)) s.cluster
        -- `do_snapshot` counts before it waits
        snapshotId := s.snapshotId + 1
        retrieving := false }
    else none
  | .branches a =>
    if a.Within s.peers then
      (s.cluster.step a).map fun c => { s with
        cluster := c
        created := s.created ++ s.cluster.creates a
        marked := s.marked ++ s.cluster.marks a }
    else none

/-- The ids of the snapshots that a branch has created. -/
def createdBy (s : Inspection) (p : Name) : List UInt64 :=
  s.created.filterMap fun e => if e.1 = p then some e.2 else none

/-- The ids of the Markers that have been sent on a channel. -/
def markedOn (s : Inspection) (ch : Channel) : List UInt64 :=
  s.marked.filterMap fun e => if e.1 = ch then some e.2 else none

/-- A task runs while `d_snapshot` has the id `held`: that of a Marker is not older, and that of
an InitSnapshot is newer. -/
def Follows (held : Option UInt64) : Task → Prop
  | .marker id _ => ∀ i ∈ held, i ≤ id
  | .initSnapshot id => ∀ i ∈ held, i < id
  | _ => True

instance Follows.decidable (held : Option UInt64) : DecidablePred (Follows held)
  | .marker id _ => Option.decidableForallMem (p := fun i => i ≤ id) held
  | .initSnapshot id => Option.decidableForallMem (p := fun i => i < id) held
  | .retrieveSnapshot _ _ => isTrue trivial
  | .hello _ _ => isTrue trivial
  | .connected _ _ => isTrue trivial

/-- **The condition on a step.** -/
def InOrder (s : Inspection) (a : InspectionAction) : Prop :=
  match a with
  | .branches (.runTask p) =>
    ∀ t ∈ (s.cluster.branch p).strand.head?, Follows (s.cluster.branch p).heldId t
  | _ => True

instance InOrder.decidable (s : Inspection) : DecidablePred (InOrder s)
  | .branches (.runTask p) =>
    Option.decidableForallMem (p := Follows (s.cluster.branch p).heldId)
      (s.cluster.branch p).strand.head?
  | .branches (.controllerSend _ _) => isTrue trivial
  | .branches (.connect _ _) => isTrue trivial
  | .branches (.accept _ _) => isTrue trivial
  | .branches (.deliver _) => isTrue trivial
  | .branches (.sendMoney _ _ _) => isTrue trivial
  | .doSnapshot _ => isTrue trivial
  | .doRetrieveSnapshot => isTrue trivial

/-- The id of `d_snapshot` does not decrease at any branch. -/
def Grows (s : Inspection) (a : InspectionAction) : Prop :=
  ∀ s', s.step a = some s' → ∀ p ∈ s.peers, ∀ i ∈ (s.cluster.branch p).heldId,
    ∃ j ∈ (s'.cluster.branch p).heldId, i ≤ j

end Inspection

/-! ## What a task creates and sends -/

/-- A snapshot that starts sends its Marker on every channel. -/
theorem markers_broadcast (b : Branch) (id : UInt64) :
    markers (b.startSnapshot id).2 = b.channels.entries.map fun e => (e.2, id) := by
  rw [markers, Branch.startSnapshot, List.filterMap_map]
  exact congrFun List.filterMap_eq_map _

/-- Completing a channel keeps the id. -/
theorem heldId_closeChannel (b : Branch) (sender : Name) :
    (b.closeChannel sender).heldId = b.heldId := by
  unfold Branch.closeChannel Branch.heldId
  cases b.snapshot with
  | none => rfl
  | some s => exact congrArg some (Snapshot.marker_id s sender)

/-- **What a task creates and sends.** With a snapshot goes one Marker on every channel; a task
that creates none keeps the id and sends no Marker. -/
theorem Branch.perform_creates {b : Branch} {t : Task} {r : Branch × List Effect}
    (h : b.perform t = .ok r) :
    (∃ id, b.creates t = some id ∧ r.1.heldId = some id ∧
      markers r.2 = b.channels.entries.map fun e => (e.2, id)) ∨
    (b.creates t = none ∧ r.1.heldId = b.heldId ∧ markers r.2 = []) := by
  cases t with
  | initSnapshot id =>
    cases h
    exact Or.inl ⟨id, rfl, rfl, markers_broadcast b id⟩
  | marker id ci =>
    cases h
    rw [markerTask, creates]
    -- `markerTask` takes a snapshot only when its id differs from the one held.
    by_cases hid : b.snapshot.map Snapshot.id = some id
    · rw [if_pos hid, if_pos hid]
      exact Or.inr ⟨rfl, heldId_closeChannel b ci.first, rfl⟩
    · rw [if_neg hid, if_neg hid]
      refine Or.inl ⟨id, rfl, ?_, markers_broadcast b id⟩
      exact heldId_closeChannel (b.startSnapshot id).1 ci.first
  | retrieveSnapshot id ci =>
    refine Or.inr ⟨rfl, ?_⟩
    rcases retrieveSnapshotTask_eq h with ⟨msg, rfl⟩ | ⟨text, rfl⟩
    · exact ⟨rfl, rfl⟩
    · exact ⟨rfl, rfl⟩
  | hello name ci =>
    cases h
    exact Or.inr ⟨rfl, rfl, rfl⟩
  | connected name ch =>
    cases h
    exact Or.inr ⟨rfl, rfl, rfl⟩

/-! ## A connected cluster stays connected -/

/-- Messages that change no connection. -/
def Routine : BranchMessage → Prop
  | .initBranch _ | .hello _ => False
  | _ => True

/-- All pairs are connected, and nothing on the way or waiting changes that. -/
structure Steady (N : Finset Name) (c : Cluster) : Prop extends Joined N c where
  tasks : ∀ p ∈ N, ∀ t ∈ (c.branch p).strand, Branch.entered t = none
  messages : ∀ p ∈ N, ∀ ch, ch.host = some p → ∀ msg ∈ c.queue ch, Routine msg

variable {N : Finset Name} {c c' : Cluster}

/-- A settled bank is steady. -/
theorem Settled.steady (h : Settled N c) : Steady N c where
  toJoined := h.toJoined
  tasks p hp t ht := by
    obtain ⟨id, ci, rfl⟩ := h.tasks p hp t ht
    rfl
  messages p hp ch hch msg hmsg := by
    rcases h.messages p hp ch hch msg hmsg with hm | ⟨q, a, _, rfl⟩
    · cases msg <;> first | exact trivial | exact hm
    · exact trivial

/-- What a handler of a routine message keeps. -/
theorem Branch.messageHandler_routine {b : Branch} {msg : BranchMessage} {ci : ChannelInfo}
    {r : Branch × List Effect} (hmsg : Routine msg) (h : b.messageHandler msg ci = .ok r) :
    r.1.channels = b.channels ∧ r.1.knownPeers = b.knownPeers ∧ r.1.handlerName = b.handlerName ∧
      r.1.heldId = b.heldId ∧ r.2 = [] ∧
      ∀ t ∈ r.1.strand, t ∈ b.strand ∨ Branch.entered t = none := by
  -- a task that is posted enters no channel
  have hpost : ∀ {t : Task}, Branch.entered t = none →
      ∀ u ∈ b.strand ++ [t], u ∈ b.strand ∨ Branch.entered u = none := by
    intro t ht u hu
    rcases List.mem_append.mp hu with hu | hu
    · exact Or.inl hu
    · exact Or.inr (List.mem_singleton.mp hu ▸ ht)
  cases msg with
  | initBranch m => exact hmsg.elim
  | hello name => exact hmsg.elim
  | transfer money =>
    cases h
    refine ⟨rfl, rfl, rfl, ?_, rfl, fun t ht => Or.inl ht⟩
    unfold transferHandler heldId
    cases b.snapshot with
    | none => rfl
    | some s => exact congrArg some (Snapshot.recordTx_id s ci.first money)
  | initSnapshot id | marker id | retrieveSnapshot id =>
    cases h
    exact ⟨rfl, rfl, rfl, rfl, rfl, hpost rfl⟩
  | returnSnapshot m | notSet =>
    cases h
    exact ⟨rfl, rfl, rfl, rfl, rfl, fun t ht => Or.inl ht⟩

/-- A task that enters no channel binds no name. -/
theorem Branch.perform_handlerName {b : Branch} {t : Task} {r : Branch × List Effect}
    (ht : Branch.entered t = none) (h : b.perform t = .ok r) :
    r.1.handlerName = b.handlerName := by
  cases t with
  | initSnapshot id =>
    cases h
    rfl
  | marker id ci =>
    cases h
    unfold markerTask
    split <;> rfl
  | retrieveSnapshot id ci =>
    rcases retrieveSnapshotTask_eq h with ⟨msg, rfl⟩ | ⟨text, rfl⟩ <;> rfl
  | hello name ci => cases ht
  | connected name ch => cases ht

/-- A branch goes over to a new state. -/
theorem Steady.update (h : Steady N c) {p : Name} {r : Branch × List Effect}
    (hchannels : r.1.channels = (c.branch p).channels)
    (hpeers : r.1.knownPeers = (c.branch p).knownPeers)
    (hnames : r.1.handlerName = (c.branch p).handlerName) (hopened : Cluster.opened r.2 = [])
    (htasks : ∀ t ∈ r.1.strand, t ∈ (c.branch p).strand ∨ Branch.entered t = none)
    (hsent : ∀ ch, ∀ m ∈ Cluster.sentTo r.2 ch, Routine m) : Steady N (c.update p r) where
  toJoined := h.toJoined.update hchannels hpeers hnames hopened
  tasks q hq t ht := by
    by_cases hqp : q = p
    · subst hqp
      rw [Cluster.update_self] at ht
      exact (htasks t ht).elim (h.tasks q hq t) id
    · rw [Cluster.update_ne c r hqp] at ht
      exact h.tasks q hq t ht
  messages q hq ch hch msg hmsg := by
    rw [Cluster.update_queue] at hmsg
    exact (List.mem_append.mp hmsg).elim (h.messages q hq ch hch msg) (hsent ch msg)

/-- Messages are taken off the queues. -/
theorem Steady.withQueue (h : Steady N c) {queue : Channel → List BranchMessage}
    (hsub : ∀ ch, ∀ msg ∈ queue ch, msg ∈ c.queue ch ∨ Routine msg) :
    Steady N { c with queue := queue } where
  toJoined := h.toJoined.withQueue queue
  tasks := h.tasks
  messages p hp ch hch msg hmsg := (hsub ch msg hmsg).elim (h.messages p hp ch hch msg) id

/-- The controller's messages keep the bank steady. -/
theorem Steady.ask (h : Steady N c) {msg : BranchMessage} (hmsg : Routine msg) (p : Name) :
    Steady N (Inspection.ask msg c p) := by
  refine h.withQueue fun ch m hm => ?_
  split at hm
  · rcases List.mem_append.mp hm with hm | hm
    · exact Or.inl hm
    · exact Or.inr (List.mem_singleton.mp hm ▸ hmsg)
  · exact Or.inl hm

/-- What a step of the branches keeps, and what it creates and sends. -/
structure Stays (N : Finset Name) (c c' : Cluster) : Prop where
  steady : Steady N c'
  channels : ∀ q, (c'.branch q).channels = (c.branch q).channels

/-- A delivery keeps the bank steady and starts no snapshot. -/
theorem Steady.deliver (h : Steady N c) {ch : Channel} (hhost : ∃ p ∈ N, ch.host = some p)
    (hstep : c.deliver ch = some c') :
    Stays N c c' ∧ ∀ q, (c'.branch q).heldId = (c.branch q).heldId := by
  obtain ⟨p, hp, hpch⟩ := hhost
  obtain ⟨p', msg, rest, r, hhost', hqueue, _, hr, rfl⟩ := Cluster.deliver_eq_some hstep
  obtain rfl : p' = p := Option.some.inj (hhost'.symm.trans hpch)
  have hmsg : Routine msg := h.messages p' hp ch hpch msg (by rw [hqueue]; exact List.mem_cons_self)
  obtain ⟨hchannels, hpeers, hnames, hheld, heffects, htasks⟩ :=
    Branch.messageHandler_routine hmsg hr
  have hpopped : Steady N { c with queue := fun x => if x = ch then rest else c.queue x } := by
    refine h.withQueue fun x m hm => Or.inl ?_
    split at hm
    · next hx =>
      rw [hx, hqueue]
      exact List.mem_cons_of_mem msg hm
    · exact hm
  refine ⟨⟨hpopped.update hchannels hpeers hnames (by rw [heffects]; rfl) htasks fun x m hm => ?_,
    Cluster.update_field Branch.channels _ hchannels⟩, Cluster.update_field Branch.heldId _ hheld⟩
  rw [heffects] at hm
  cases hm

theorem Steady.runTask (h : Steady N c) {p : Name} (hp : p ∈ N) {t : Task} {rest : List Task}
    {r : Branch × List Effect} (hstrand : (c.branch p).strand = t :: rest)
    (hr : ({ c.branch p with strand := rest } : Branch).perform t = .ok r) :
    Stays N c (c.update p r) := by
  have ht : Branch.entered t = none := h.tasks p hp t (by rw [hstrand]; exact List.mem_cons_self)
  obtain ⟨-, hpeers, -, hrest, hopened, hchannels, hsent⟩ := Branch.perform_ok hr
  rw [ht] at hchannels
  have hnames := Branch.perform_handlerName ht hr
  refine ⟨h.update hchannels hpeers hnames hopened (fun u hu => ?_) fun ch m hm => ?_,
    Cluster.update_field Branch.channels _ hchannels⟩
  · rw [hrest] at hu
    rw [hstrand]
    exact Or.inl (List.mem_cons_of_mem t hu)
  · rcases hsent ch m hm with ⟨id, rfl⟩ | ⟨sn, rfl⟩ | ⟨name, x, rfl, _⟩
    · exact trivial
    · exact trivial
    · cases ht

/-- So does sending money. -/
theorem Steady.sendMoney (h : Steady N c) {p : Name} {i : ℕ} {attempts : List Branch.Attempt}
    (hstep : c.sendMoney p i attempts = some c') :
    Stays N c c' ∧ ∀ q, (c'.branch q).heldId = (c.branch q).heldId := by
  obtain ⟨e, toSend, he, hle, rfl⟩ := Cluster.sendMoney_eq_some hstep
  refine ⟨⟨h.update rfl rfl rfl ?_ (fun t ht => Or.inl ht) fun ch m hm => ?_,
    Cluster.update_field Branch.channels _ rfl⟩, Cluster.update_field Branch.heldId _ rfl⟩
  · show Cluster.opened (if _ then _ else _) = []
    split <;> rfl
  · change m ∈ Cluster.sentTo (if _ then _ else _) ch at hm
    split at hm
    · simp only [Cluster.sentTo, List.mem_filterMap, List.mem_singleton] at hm
      obtain ⟨e', rfl, he'⟩ := hm
      simp only [Option.ite_none_right_eq_some, Option.some.injEq] at he'
      rw [← he'.2]
      exact trivial
    · cases hm

/-- And accepting a connection. -/
theorem Steady.accept (h : Steady N c) {p : Name} {k : Connection}
    (hstep : c.accept p k = some c') :
    Stays N c c' ∧ ∀ q, (c'.branch q).heldId = (c.branch q).heldId := by
  obtain ⟨hk, _, rfl⟩ := Cluster.accept_eq_some hstep
  have hstrand : ∀ q, ((c.setBranch p ((c.branch p).doAccept ⟨k, .acceptor⟩)).branch q).strand
      = (c.branch q).strand := Cluster.setBranch_field Branch.strand c rfl
  refine ⟨⟨⟨h.toJoined.accept p hk, fun q hq t ht => h.tasks q hq t (hstrand q ▸ ht), h.messages⟩,
    Cluster.setBranch_field Branch.channels c rfl⟩, Cluster.setBranch_field Branch.heldId c rfl⟩

/-- **A step of the branches** is a task, or it keeps the ids and neither creates nor marks. -/
theorem Steady.step (h : Steady N c) {peers : List Name} (hpeers : ∀ p ∈ peers, p ∈ N) {a : Action}
    (hwithin : a.Within peers) (hstep : c.step a = some c') :
    Stays N c c' ∧
      ((∃ p ∈ N, ∃ t rest r, a = .runTask p ∧ (c.branch p).strand = t :: rest ∧
          ({ c.branch p with strand := rest } : Branch).perform t = .ok r ∧ c' = c.update p r) ∨
        ((∀ p, a ≠ .runTask p) ∧ (∀ q, (c'.branch q).heldId = (c.branch q).heldId) ∧
          c.creates a = [] ∧ c.marks a = [])) := by
  -- Tasks alone take snapshots; every other step leaves what the branches hold.
  cases a with
  | controllerSend p msg => exact hwithin.elim
  | connect peer ch =>
    obtain ⟨_, _, hmem, _⟩ := Cluster.connect_eq_some hstep
    rw [h.connected] at hmem
    cases hmem
  | accept p k =>
    obtain ⟨hstays, hheld⟩ := h.accept hstep
    exact ⟨hstays, Or.inr ⟨fun q hq => (by cases hq), hheld, rfl, rfl⟩⟩
  | deliver ch =>
    obtain ⟨p, hp, hhost⟩ := hwithin
    obtain ⟨hstays, hheld⟩ := h.deliver ⟨p, hpeers p hp, hhost⟩ hstep
    exact ⟨hstays, Or.inr ⟨fun q hq => (by cases hq), hheld, rfl, rfl⟩⟩
  | runTask p =>
    obtain ⟨t, rest, r, hstrand, hr, rfl⟩ := Cluster.runTask_eq_some hstep
    have hp := hpeers p hwithin
    exact ⟨h.runTask hp hstrand hr, Or.inl ⟨p, hp, t, rest, r, rfl, hstrand, hr, rfl⟩⟩
  | sendMoney p i attempts =>
    obtain ⟨hstays, hheld⟩ := h.sendMoney hstep
    exact ⟨hstays, Or.inr ⟨fun q hq => (by cases hq), hheld, rfl, rfl⟩⟩

/-- What the next task of a branch creates and sends. -/
theorem Cluster.task_creates {p : Name} {t : Task} {rest : List Task} {r : Branch × List Effect}
    (hstrand : (c.branch p).strand = t :: rest)
    (hr : ({ c.branch p with strand := rest } : Branch).perform t = .ok r) :
    (∃ id, (c.branch p).creates t = some id ∧ c.creates (.runTask p) = [(p, id)] ∧
      r.1.heldId = some id ∧
      c.marks (.runTask p) = (c.branch p).channels.entries.map fun e => (e.2, id)) ∨
    ((c.branch p).creates t = none ∧ c.creates (.runTask p) = [] ∧
      r.1.heldId = (c.branch p).heldId ∧ c.marks (.runTask p) = []) := by
  have hcreates : c.creates (.runTask p) =
      ((c.branch p).creates t).toList.map fun id => (p, id) := by
    rw [creates, hstrand]
  have hmarks : c.marks (.runTask p) = markers r.2 := by
    rw [marks, hstrand]
    simp only [hr]
  -- only `d_snapshot` matters
  have hsame : ({ c.branch p with strand := rest } : Branch).creates t
    = (c.branch p).creates t := by
    cases t <;> rfl
  rw [hcreates, hmarks]
  rcases Branch.perform_creates hr with ⟨id, hid, hheld, hsent⟩ | ⟨hid, hheld, hsent⟩
  · rw [hsame] at hid
    exact Or.inl ⟨id, hid, by rw [hid]; rfl, hheld, hsent⟩
  · rw [hsame] at hid
    exact Or.inr ⟨hid, by rw [hid]; rfl, hheld, hsent⟩

/-- One Marker is sent on a channel of the branch. -/
theorem Joined.mark_own (h : Joined N c) {p q : Name} (hp : p ∈ N) {ch : Channel}
    (hl : (c.branch p).channels.lookup q = some ch) (id : UInt64) :
    ((c.branch p).channels.entries.map fun e => (e.2, id)).filterMap
      (fun e => if e.1 = ch then some e.2 else none) = [id] := by
  have hmem : (⟨q, ch⟩ : Sigma fun _ : Name => Channel) ∈ (c.branch p).channels.entries :=
    AList.mem_lookup_iff.mp hl
  rw [List.filterMap_map]
  refine filterMap_ite_unique (List.NodupKeys.nodup (c.branch p).channels.nodupKeys) hmem
    (fun e he => ⟨fun hech => ?_, fun hee => by rw [hee]⟩) id
  obtain rfl : e.2 = ch := hech
  have hle : Linked c e.1 p e.2 := UnorderedMap.lookup_of_mem_entries he
  have heq : e.1 = q := (h.linked_unique hp hp hle hl).1
  exact Sigma.ext heq HEq.rfl

/-- No marker is put on a channel that is not the branch's own. -/
theorem mark_other {p : Name} {ch : Channel}
    (hl : ∀ q, (c.branch p).channels.lookup q ≠ some ch) (id : UInt64) :
    ((c.branch p).channels.entries.map fun e => (e.2, id)).filterMap
      (fun e => if e.1 = ch then some e.2 else none) = [] := by
  rw [List.filterMap_map, List.filterMap_eq_nil_iff]
  intro e he
  refine if_neg fun hech => hl e.1 ?_
  obtain rfl : e.2 = ch := hech
  exact UnorderedMap.lookup_of_mem_entries he

namespace Inspection

variable {s s' : Inspection} {a : InspectionAction}

/-- A timer of the controller changes no branch and no history. -/
structure Asks (s s' : Inspection) : Prop where
  branch : s'.cluster.branch = s.cluster.branch
  peers : s'.peers = s.peers
  created : s'.created = s.created
  marked : s'.marked = s.marked
  steady : ∀ N, Steady N s.cluster → Steady N s'.cluster

/-- Asking changes no branch. -/
theorem foldl_ask (peers : List Name) (msg : BranchMessage) (c : Cluster) :
    (peers.foldl (ask msg) c).branch = c.branch := by
  induction peers generalizing c with
  | nil => rfl
  | cons p peers ih => exact ih (ask msg c p)

/-- Asking all branches keeps the bank steady. -/
theorem steady_foldl_ask {msg : BranchMessage} (hmsg : Routine msg) (peers : List Name)
    (h : Steady N c) : Steady N (peers.foldl (ask msg) c) := by
  induction peers generalizing c with
  | nil => exact h
  | cons p peers ih => exact ih (h.ask hmsg p)

/-- The two kinds of steps. -/
theorem step_cases (h : s.step a = some s') :
    ((∀ p, a ≠ .branches (.runTask p)) ∧ Asks s s') ∨
      ∃ act c, a = .branches act ∧ act.Within s.peers ∧ s.cluster.step act = some c ∧
        s' = { s with
          cluster := c
          created := s.created ++ s.cluster.creates act
          marked := s.marked ++ s.cluster.marks act } := by
  -- The two commands of the controller only ask; every other step is one of the branches.
  cases a with
  | doSnapshot p =>
    simp only [step] at h
    split at h
    · cases h
      refine Or.inl ⟨fun q hq => (by cases hq), rfl, rfl, rfl, rfl, fun N hN => ?_⟩
      have hmsg : Routine (.initSnapshot s.snapshotId) := trivial
      exact hN.ask hmsg p
    · cases h
  | doRetrieveSnapshot =>
    simp only [step] at h
    split at h
    · cases h
      refine Or.inl ⟨fun q hq => (by cases hq), foldl_ask _ _ _, rfl, rfl, rfl, fun N hN => ?_⟩
      have hmsg : Routine (.retrieveSnapshot s.snapshotId) := trivial
      exact steady_foldl_ask hmsg s.peers hN
    · cases h
  | branches act =>
    simp only [step] at h
    split at h
    · next hwithin =>
      obtain ⟨c, hstep, rfl⟩ := Option.map_eq_some_iff.mp h
      exact Or.inr ⟨act, c, rfl, hwithin, hstep, rfl⟩
    · cases h

/-- **The invariant of the history.** The snapshot that a branch holds is among those it has
created, and the Markers on each of its channels are those of the snapshots it has created. -/
structure Recorded (s : Inspection) : Prop where
  steady : Steady s.peers.toFinset s.cluster
  held : ∀ p ∈ s.peers, ∀ i ∈ (s.cluster.branch p).heldId, i ∈ s.createdBy p
  marks : ∀ p ∈ s.peers, ∀ q ch, (s.cluster.branch p).channels.lookup q = some ch →
    s.markedOn ch = s.createdBy p
  others : ∀ ch, (∀ p ∈ s.peers, ∀ q, (s.cluster.branch p).channels.lookup q ≠ some ch) →
    s.markedOn ch = []

/-- What a branch has created, after further ones. -/
theorem createdBy_append {l : List (Name × UInt64)} (h : s'.created = s.created ++ l) (p : Name) :
    s'.createdBy p = s.createdBy p ++ l.filterMap fun e => if e.1 = p then some e.2 else none := by
  rw [createdBy, h, List.filterMap_append]
  rfl

/-- What has been marked on a channel, after further marks. -/
theorem markedOn_append {l : List (Channel × UInt64)} (h : s'.marked = s.marked ++ l)
    (ch : Channel) :
    s'.markedOn ch = s.markedOn ch ++ l.filterMap fun e => if e.1 = ch then some e.2 else none := by
  rw [markedOn, h, List.filterMap_append]
  rfl

/-- A step that creates nothing. -/
theorem Recorded.keep (h : Recorded s) (hpeers : s'.peers = s.peers)
    (hsteady : Steady s.peers.toFinset s'.cluster)
    (hchannels : ∀ q, (s'.cluster.branch q).channels = (s.cluster.branch q).channels)
    (hheld : ∀ q, (s'.cluster.branch q).heldId = (s.cluster.branch q).heldId)
    (hcreated : s'.created = s.created) (hmarked : s'.marked = s.marked) : Recorded s' := by
  have hcreatedBy : ∀ p, s'.createdBy p = s.createdBy p := fun p => by rw [createdBy, hcreated]; rfl
  have hmarkedOn : ∀ ch, s'.markedOn ch = s.markedOn ch := fun ch => by rw [markedOn, hmarked]; rfl
  refine ⟨hpeers ▸ hsteady, fun p hp i hi => ?_, fun p hp q ch hl => ?_, fun ch hl => ?_⟩
  · rw [hpeers] at hp
    rw [hheld] at hi
    rw [hcreatedBy]
    exact h.held p hp i hi
  · rw [hpeers] at hp
    rw [hchannels] at hl
    rw [hcreatedBy, hmarkedOn]
    exact h.marks p hp q ch hl
  · rw [hmarkedOn]
    refine h.others ch fun p hp q => ?_
    rw [← hchannels p]
    exact hl p (hpeers ▸ hp) q

/-- A task that creates a snapshot. -/
theorem Recorded.create (h : Recorded s) {p : Name} (hp : p ∈ s.peers) {id : UInt64}
    (hpeers : s'.peers = s.peers) (hstays : Stays s.peers.toFinset s.cluster s'.cluster)
    (hheld : ∀ q, (s'.cluster.branch q).heldId =
      if q = p then some id else (s.cluster.branch q).heldId)
    (hcreated : s'.created = s.created ++ [(p, id)])
    (hmarked : s'.marked =
      s.marked ++ (s.cluster.branch p).channels.entries.map fun e => (e.2, id)) : Recorded s' := by
  have hcreatedBy : ∀ q, s'.createdBy q = s.createdBy q ++ if p = q then [id] else [] := by
    intro q
    rw [createdBy_append hcreated]
    by_cases hq : p = q <;> simp [hq]
  have hmarkedOn := markedOn_append hmarked
  refine ⟨hpeers ▸ hstays.steady, fun q hq i hi => ?_, fun q hq r ch hl => ?_, fun ch hl => ?_⟩
  · rw [hpeers] at hq
    rw [hheld] at hi
    rw [hcreatedBy]
    split at hi
    · next hqp =>
      obtain rfl := Option.mem_some_iff.mp hi
      rw [if_pos hqp.symm]
      exact List.mem_append_right _ List.mem_cons_self
    · exact List.mem_append_left _ (h.held q hq i hi)
  · rw [hpeers] at hq
    rw [hstays.channels] at hl
    rw [hcreatedBy, hmarkedOn, h.marks q hq r ch hl]
    by_cases hpq : p = q
    · subst hpq
      rw [h.steady.toJoined.mark_own (List.mem_toFinset.mpr hp) hl, if_pos rfl]
    · -- the channel belongs to another branch
      rw [if_neg hpq, mark_other fun r' hl' => ?_]
      exact hpq (h.steady.linked_unique (List.mem_toFinset.mpr hp) (List.mem_toFinset.mpr hq)
        hl' hl).2
  · have hl' : ∀ q ∈ s.peers, ∀ r, (s.cluster.branch q).channels.lookup r ≠ some ch := by
      intro q hq r
      rw [← hstays.channels q]
      exact hl q (hpeers ▸ hq) r
    rw [hmarkedOn, h.others ch hl', mark_other (hl' p hp)]
    rfl

/-- The two kinds of steps, for the history: a task creates a snapshot, or nothing is created. -/
theorem Recorded.cases (h : Recorded s) (hstep : s.step a = some s') :
    s'.peers = s.peers ∧ Recorded s' ∧
    ((∃ p ∈ s.peers, ∃ t rest id, a = .branches (.runTask p) ∧
        (s.cluster.branch p).strand = t :: rest ∧ (s.cluster.branch p).creates t = some id ∧
        s'.created = s.created ++ [(p, id)] ∧
        ∀ q, (s'.cluster.branch q).heldId =
          if q = p then some id else (s.cluster.branch q).heldId) ∨
      (s'.created = s.created ∧
        (∀ q, (s'.cluster.branch q).heldId = (s.cluster.branch q).heldId) ∧
        ∀ p t rest, a = .branches (.runTask p) → (s.cluster.branch p).strand = t :: rest →
          (s.cluster.branch p).creates t = none)) := by
  -- A question changes no branch; of the steps of the branches only a task may take a snapshot.
  rcases step_cases hstep with ⟨hother, hasks⟩ | ⟨act, c, rfl, hwithin, hcluster, rfl⟩
  · have hheld : ∀ q, (s'.cluster.branch q).heldId = (s.cluster.branch q).heldId := fun q => by
      rw [hasks.branch]
    refine ⟨hasks.peers, ?_, Or.inr ⟨hasks.created, hheld, fun p _ _ ha => absurd ha (hother p)⟩⟩
    exact h.keep hasks.peers (hasks.steady _ h.steady) (fun q => by rw [hasks.branch]) hheld
      hasks.created hasks.marked
  · obtain ⟨hstays, ⟨p, hp, t, rest, r, rfl, hstrand, hr, rfl⟩ |
        ⟨hother, hheld, hcreates, hmarks⟩⟩ :=
      h.steady.step (fun p hp => List.mem_toFinset.mpr hp) hwithin hcluster
    · have hp' := List.mem_toFinset.mp hp
      -- The task takes a snapshot, which is listed together with its Markers, or it takes none.
      rcases Cluster.task_creates hstrand hr with ⟨id, hid, hcreates, hheld, hmarks⟩ |
        ⟨hnone, hcreates, hheld, hmarks⟩
      · have hheld' : ∀ q, ((s.cluster.update p r).branch q).heldId =
            if q = p then some id else (s.cluster.branch q).heldId := by
          intro q
          split
          · next hqp => rw [hqp, Cluster.update_self, hheld]
          · next hqp => rw [Cluster.update_ne _ _ hqp]
        refine ⟨rfl, ?_, Or.inl ⟨p, hp', t, rest, id, rfl, hstrand, hid, ?_, hheld'⟩⟩
        · exact h.create hp' rfl hstays hheld' (by rw [hcreates]) (by rw [hmarks])
        · rw [hcreates]
      · have hheld' := Cluster.update_field Branch.heldId _ hheld
        have hcreated : s.created ++ s.cluster.creates (.runTask p) = s.created := by
          rw [hcreates, List.append_nil]
        refine ⟨rfl, ?_, Or.inr ⟨hcreated, hheld', fun q t' rest' hq hstrand' => ?_⟩⟩
        · exact h.keep rfl hstays.steady hstays.channels hheld' hcreated
            (by rw [hmarks, List.append_nil])
        · cases hq
          rw [hstrand] at hstrand'
          cases hstrand'
          exact hnone
    · have hcreated : s.created ++ s.cluster.creates act = s.created := by
        rw [hcreates, List.append_nil]
      refine ⟨rfl, ?_, Or.inr ⟨hcreated, hheld, fun p t rest hp => ?_⟩⟩
      · exact h.keep rfl hstays.steady hstays.channels hheld hcreated
          (by rw [hmarks, List.append_nil])
      · exact absurd (InspectionAction.branches.inj hp) (hother p)

/-! ## Runs -/

/-- The condition, by what the task creates. -/
theorem inOrder_iff {p : Name} {t : Task} {rest : List Task}
    (hstrand : (s.cluster.branch p).strand = t :: rest) :
    InOrder s (.branches (.runTask p)) ↔
      ∀ id, (s.cluster.branch p).creates t = some id →
        ∀ i ∈ (s.cluster.branch p).heldId, i < id := by
  have hhead : InOrder s (.branches (.runTask p)) ↔ Follows (s.cluster.branch p).heldId t := by
    rw [InOrder, hstrand]
    exact ⟨fun h => h t rfl, fun h u hu => Option.mem_some_iff.mp hu ▸ h⟩
  rw [hhead]
  cases t with
  | initSnapshot id =>
    refine ⟨fun h id' hid => ?_, fun h => h id rfl⟩
    cases hid
    exact h
  | marker id ci =>
    constructor
    · intro h id' hid i hi
      simp only [Branch.creates] at hid
      split at hid
      · cases hid
      · next hne =>
        cases hid
        refine UInt64.lt_of_le_of_ne (h i hi) fun heq => hne ?_
        rw [← heq]
        exact hi
    · intro h i hi
      by_cases hid : (s.cluster.branch p).snapshot.map Snapshot.id = some id
      · -- the task joins the snapshot that there is
        exact UInt64.le_of_eq (Option.some.inj (hi.symm.trans hid))
      · exact UInt64.le_of_lt (h id (if_neg hid) i hi)
  | retrieveSnapshot id ci => exact ⟨fun _ id' hid => (by cases hid), fun _ => trivial⟩
  | hello name ci => exact ⟨fun _ id' hid => (by cases hid), fun _ => trivial⟩
  | connected name ch => exact ⟨fun _ id' hid => (by cases hid), fun _ => trivial⟩

/-- The ids that a branch has created ascend, and it holds the last. -/
def Ascending (s : Inspection) : Prop :=
  ∀ p ∈ s.peers, (s.createdBy p).Pairwise (· < ·) ∧
    ∀ x ∈ s.createdBy p, ∃ i ∈ (s.cluster.branch p).heldId, x ≤ i

/-- **One step in order.** -/
theorem Ascending.step (h : Ascending s) (hrec : Recorded s) (horder : InOrder s a)
    (hstep : s.step a = some s') : Ascending s' := by
  obtain ⟨hpeers, -, ⟨p, hp, t, rest, id, rfl, hstrand, hid, hcreated, hheld⟩ |
    ⟨hcreated, hheld, -⟩⟩ := hrec.cases hstep
  · intro q hq
    rw [hpeers] at hq
    obtain ⟨hlt, hle⟩ := h q hq
    rw [createdBy_append hcreated, hheld]
    by_cases hpq : p = q
    · subst hpq
      -- the new id is above the held one, and that above all before it
      have hnewer := (inOrder_iff hstrand).mp horder id hid
      have hnew : ∀ x ∈ s.createdBy p, x < id := by
        intro x hx
        obtain ⟨i, hi, hxi⟩ := hle x hx
        exact UInt64.lt_of_le_of_lt hxi (hnewer i hi)
      simp only [List.filterMap_cons, if_true, List.filterMap_nil]
      refine ⟨List.pairwise_append.mpr ⟨hlt, List.pairwise_singleton _ _, fun x hx y hy => ?_⟩,
        fun x hx => ⟨id, rfl, ?_⟩⟩
      · rw [List.mem_singleton.mp hy]
        exact hnew x hx
      · rcases List.mem_append.mp hx with hx | hx
        · exact UInt64.le_of_lt (hnew x hx)
        · exact UInt64.le_of_eq (List.mem_singleton.mp hx)
    · simp only [List.filterMap_cons, hpq, if_false, List.filterMap_nil, List.append_nil,
        Ne.symm hpq]
      exact ⟨hlt, hle⟩
  · intro q hq
    rw [hpeers] at hq
    rw [createdBy, hcreated, hheld]
    exact h q hq

/-- What a step in order does to the ids that are held. -/
theorem Recorded.grows (h : Recorded s) (horder : InOrder s a) : Grows s a := by
  intro s' hstep q hq i hi
  obtain ⟨-, -, ⟨p, hp, t, rest, id, rfl, hstrand, hid, -, hheld⟩ | ⟨-, hheld, -⟩⟩ := h.cases hstep
  · rw [hheld]
    split
    · next hqp =>
      subst hqp
      exact ⟨id, rfl, UInt64.le_of_lt ((inOrder_iff hstrand).mp horder id hid i hi)⟩
    · exact ⟨i, hi, UInt64.le_rfl⟩
  · rw [hheld]
    exact ⟨i, hi, UInt64.le_rfl⟩

/-- A step that keeps the ids from decreasing and creates no snapshot twice is in order. -/
theorem Recorded.inOrder (h : Recorded s) (hstep : s.step a = some s') (hgrows : Grows s a)
    (hnodup : ∀ p ∈ s.peers, (s'.createdBy p).Nodup) : InOrder s a := by
  obtain ⟨-, -, ⟨p, hp, t, rest, id, rfl, hstrand, hid, hcreated, hheld⟩ |
    ⟨-, -, hnone⟩⟩ := h.cases hstep
  · refine (inOrder_iff hstrand).mpr fun id' hid' i hi => ?_
    cases hid.symm.trans hid'
    obtain ⟨j, hj, hij⟩ := hgrows s' hstep p hp i hi
    rw [hheld, if_pos rfl] at hj
    obtain rfl := Option.mem_some_iff.mp hj
    refine UInt64.lt_of_le_of_ne hij fun heq => ?_
    -- the id is created a second time
    have hn := hnodup p hp
    rw [createdBy_append hcreated] at hn
    simp only [List.filterMap_cons, if_true, List.filterMap_nil] at hn
    exact (List.nodup_append.mp hn).2.2 i (h.held p hp i hi) id List.mem_cons_self heq
  · cases a with
    | doSnapshot p => exact trivial
    | doRetrieveSnapshot => exact trivial
    | branches act =>
      cases act with
      | runTask p =>
        cases hstrand : (s.cluster.branch p).strand with
        | nil =>
          intro t ht
          rw [hstrand] at ht
          cases ht
        | cons t rest =>
          refine (inOrder_iff hstrand).mpr fun id hid => ?_
          rw [hnone p t rest rfl hstrand] at hid
          cases hid
      | _ => exact trivial

/-- The snapshots of a branch are a list that only grows at its end. -/
theorem createdBy_exec (h : Recorded s) {as : List InspectionAction}
    (hrun : exec step s as = some s') (p : Name) : s.createdBy p <+: s'.createdBy p := by
  induction as generalizing s with
  | nil =>
    cases hrun
    exact List.prefix_rfl
  | cons a as ih =>
    obtain ⟨m, hm, hrest⟩ := exec_cons.mp hrun
    obtain ⟨-, hrec, hcreated⟩ := h.cases hm
    refine List.IsPrefix.trans ?_ (ih hrec hrest)
    rcases hcreated with ⟨q, _, _, _, id, _, _, _, hcreated, _⟩ | ⟨hcreated, _⟩
    · rw [createdBy_append hcreated]
      exact List.prefix_append _ _
    · rw [createdBy, createdBy, hcreated]

theorem peers_exec (h : Recorded s) {as : List InspectionAction}
    (hrun : exec step s as = some s') : s'.peers = s.peers := by
  induction as generalizing s with
  | nil =>
    cases hrun
    rfl
  | cons a as ih =>
    obtain ⟨m, hm, hrest⟩ := exec_cons.mp hrun
    obtain ⟨hpeers, hrec, -⟩ := h.cases hm
    exact (ih hrec hrest).trans hpeers

/-- The condition along a run, from what the run keeps. Induction on the run. -/
theorem Recorded.along_inOrder (h : Recorded s) {as : List InspectionAction}
    (hrun : exec step s as = some s') (hgrows : Along step Grows s as)
    (hnodup : ∀ p ∈ s'.peers, (s'.createdBy p).Nodup) : Along step InOrder s as := by
  induction as generalizing s with
  | nil => trivial
  | cons a as ih =>
    obtain ⟨m, hm, hrest⟩ := exec_cons.mp hrun
    obtain ⟨hpeers, hrec, -⟩ := h.cases hm
    refine ⟨h.inOrder hm hgrows.1 fun p hp => ?_, fun m' hm' => ?_⟩
    · refine (createdBy_exec hrec hrest p).sublist.nodup (hnodup p ?_)
      rw [peers_exec hrec hrest, hpeers]
      exact hp
    · obtain rfl := Option.some.inj (hm.symm.trans hm')
      exact ih hrec hrest (hgrows.2 m hm)

/-- A connected bank before its first snapshot. -/
theorem recorded_start {peers : List Name} {c₀ : Cluster} (h : Settled peers.toFinset c₀)
    (hnone : ∀ p ∈ peers, (c₀.branch p).snapshot = none) :
    Recorded { cluster := c₀, peers := peers } where
  steady := h.steady
  held p hp i hi := by
    rw [Branch.heldId, hnone p hp] at hi
    cases hi
  marks _ _ _ _ _ := rfl
  others _ _ := rfl

/-- **One snapshot for each id.** In a run of connected branches that have taken no snapshot yet,
no id of `d_snapshot` decreases, no branch creates two snapshots of one id and no channel
carries two Markers of one id, exactly when every Marker and every InitSnapshot is handled in
order. -/
theorem one_snapshot_per_id_iff {peers : List Name} {c₀ : Cluster}
    (hsettled : Settled peers.toFinset c₀) (hnone : ∀ p ∈ peers, (c₀.branch p).snapshot = none)
    {as : List InspectionAction}
    (hrun : exec step { cluster := c₀, peers := peers } as = some s) :
    Along step InOrder { cluster := c₀, peers := peers } as ↔
      Along step Grows { cluster := c₀, peers := peers } as ∧
      (∀ p ∈ peers, (s.createdBy p).Nodup) ∧ ∀ ch, (s.markedOn ch).Nodup := by
  have hstart := recorded_start hsettled hnone
  have hpeers : s.peers = peers := peers_exec hstart hrun
  constructor
  · intro horder
    -- In order: the ids a branch has taken ascend, so none is taken twice.
    have hinv : Recorded s ∧ Ascending s := by
      refine exec_inv_along (P := fun s => Recorded s ∧ Ascending s) ?_ ⟨hstart, ?_⟩ horder hrun
      · intro s a s' hs ha hstep
        exact ⟨(hs.1.cases hstep).2.1, hs.2.step hs.1 ha hstep⟩
      · exact fun p _ => ⟨.nil, List.forall_mem_nil _⟩
    have hnodup : ∀ p ∈ peers, (s.createdBy p).Nodup := fun p hp =>
      (hinv.2 p (hpeers ▸ hp)).1.imp fun hlt => UInt64.ne_of_lt hlt
    refine ⟨?_, hnodup, fun ch => ?_⟩
    · exact along_of_inv (fun _ _ _ hs _ hstep => (hs.cases hstep).2.1)
        (fun _ _ hs ha => hs.grows ha) hstart horder
    · -- Markers go out once for each snapshot, and only on the channels of a branch.
      by_cases hl : ∃ p ∈ s.peers, ∃ q, (s.cluster.branch p).channels.lookup q = some ch
      · obtain ⟨p, hp, q, hl⟩ := hl
        rw [hinv.1.marks p hp q ch hl]
        exact hnodup p (hpeers ▸ hp)
      · rw [hinv.1.others ch fun p hp q hq => hl ⟨p, hp, q, hq⟩]
        exact List.nodup_nil
  · rintro ⟨hgrows, hnodup, -⟩
    exact hstart.along_inOrder hrun hgrows (hpeers ▸ hnodup)

/-! ## Three branches -/

/-- The branch after and the branch before. -/
def neighbours (p : Name) : Name × Name :=
  if p = "a" then ("b", "c") else if p = "b" then ("c", "a") else ("a", "b")

/-- Three branches, each with a connection that it has opened to the next one. -/
def triangle : Cluster where
  branch p :=
    { name := p
      channels := AList.insert (neighbours p).2 ⟨.peer (neighbours p).2 p, .acceptor⟩
        (AList.singleton (neighbours p).1 ⟨.peer p (neighbours p).1, .opener⟩)
      knownPeers := [⟨(neighbours p).1, "", 0⟩, ⟨(neighbours p).2, "", 0⟩]
      money := 10
      handlerName := fun ch => match ch.connection with
        | .peer o a => if o = p then a else o
        | .controller _ => ""
      sending := true }

/-- Three branches, each connected to the others, are settled. -/
theorem triangle_settled : Settled ["a", "b", "c"].toFinset triangle where
  wired p hp q hq hpq := by
    simp only [List.mem_toFinset, List.mem_cons, List.not_mem_nil, or_false] at hp hq
    rcases hp with rfl | rfl | rfl <;> rcases hq with rfl | rfl | rfl <;>
      first
      | exact absurd rfl hpq
      | exact ⟨_, rfl, rfl, rfl, rfl⟩
  keys p hp q := by
    simp only [List.mem_toFinset, List.mem_cons, List.not_mem_nil, or_false] at hp ⊢
    rcases hp with rfl | rfl | rfl <;> by_cases hqa : q = "a" <;> by_cases hqb : q = "b" <;>
      by_cases hqc : q = "c" <;> simp_all [triangle, neighbours, AList.mem_keys]
  peers p hp q := by
    simp only [List.mem_toFinset, List.mem_cons, List.not_mem_nil, or_false] at hp ⊢
    rcases hp with rfl | rfl | rfl <;> by_cases hqa : q = "a" <;> by_cases hqb : q = "b" <;>
      by_cases hqc : q = "c" <;> simp_all [triangle, neighbours]
  connected := rfl
  accepted k hk := by cases hk
  tasks p _ t ht := by cases ht
  messages p _ ch _ msg hmsg := by cases hmsg

/-- A message is delivered and the task that it posts runs. -/
def handled (p : Name) (ch : Channel) : List InspectionAction :=
  [.branches (.deliver ch), .branches (.runTask p)]

/-- The first snapshot is complete at `"a"`, which returns it; the Marker of `"c"` is still on its
way to `"b"`, and so is the request of the controller. Then `"a"` starts the second one. -/
def overlapping : List InspectionAction :=
  .doSnapshot "a" :: handled "a" ⟨.controller "a", .acceptor⟩ ++
    handled "b" ⟨.peer "a" "b", .acceptor⟩ ++ handled "c" ⟨.peer "c" "a", .opener⟩ ++
    handled "a" ⟨.peer "a" "b", .opener⟩ ++ handled "a" ⟨.peer "c" "a", .acceptor⟩ ++
    .doRetrieveSnapshot :: handled "a" ⟨.controller "a", .acceptor⟩ ++
    .doSnapshot "a" :: handled "a" ⟨.controller "a", .acceptor⟩

/-- The Marker of the first snapshot arrives before that of the second. -/
def patientRun : List InspectionAction :=
  overlapping ++ handled "b" ⟨.peer "b" "c", .opener⟩ ++ handled "b" ⟨.peer "a" "b", .acceptor⟩

theorem one_snapshot_per_id_iff_three : ∃ s,
    exec step { cluster := triangle, peers := ["a", "b", "c"] } patientRun = some s ∧
    s.createdBy "b" = [1, 2] ∧ Along step Grows { cluster := triangle, peers := ["a", "b", "c"] }
      patientRun ∧ (∀ p ∈ ["a", "b", "c"], (s.createdBy p).Nodup) ∧
        ∀ ch, (s.markedOn ch).Nodup := by
  have hend : (exec step { cluster := triangle, peers := ["a", "b", "c"] } patientRun).any
      (fun s => s.createdBy "b" = [1, 2]) = true := by decide +kernel
  obtain ⟨s, hrun, hs⟩ := (Option.any_eq_true _ _).mp hend
  have horder :
      Along step InOrder { cluster := triangle, peers := ["a", "b", "c"] } patientRun := by
    decide +kernel
  refine ⟨s, hrun, of_decide_eq_true hs, ?_⟩
  exact (one_snapshot_per_id_iff triangle_settled (fun p _ => rfl) hrun).mp horder

/-- The Marker of the first snapshot arrives after that of the second, up to its task. -/
def hastyRun : List InspectionAction :=
  overlapping ++ handled "b" ⟨.peer "a" "b", .acceptor⟩ ++
    [.branches (.deliver ⟨.peer "b" "c", .opener⟩)]

/-- **A branch creates its first snapshot twice**, sends its Markers again, and its id goes back. -/
theorem snapshot_created_again : ∃ s,
    exec step { cluster := triangle, peers := ["a", "b", "c"] }
      (hastyRun ++ [.branches (.runTask "b")]) = some s ∧
    s.createdBy "b" = [1, 2, 1] ∧ s.markedOn ⟨.peer "b" "c", .opener⟩ = [1, 2, 1] ∧
    ¬ Along step Grows { cluster := triangle, peers := ["a", "b", "c"] }
      (hastyRun ++ [.branches (.runTask "b")]) := by
  have hend : (exec step { cluster := triangle, peers := ["a", "b", "c"] } hastyRun).any (fun m =>
      m.peers = ["a", "b", "c"] ∧ (m.cluster.branch "b").heldId = some 2 ∧
      (m.step (.branches (.runTask "b"))).any (fun s => s.createdBy "b" = [1, 2, 1] ∧
        s.markedOn ⟨.peer "b" "c", .opener⟩ = [1, 2, 1] ∧
        (s.cluster.branch "b").heldId = some 1) = true) = true := by
    decide +kernel
  obtain ⟨m, hrun, hm⟩ := (Option.any_eq_true _ _).mp hend
  obtain ⟨hpeers, hbefore, hlast⟩ := of_decide_eq_true hm
  obtain ⟨s, hstep, hs⟩ := (Option.any_eq_true _ _).mp hlast
  obtain ⟨hcreated, hmarked, hafter⟩ := of_decide_eq_true hs
  refine ⟨s, exec_append.mpr ⟨m, hrun, exec_cons.mpr ⟨s, hstep, rfl⟩⟩, hcreated, hmarked,
    fun hgrows => ?_⟩
  have hb : "b" ∈ m.peers := by
    rw [hpeers]
    decide
  obtain ⟨j, hj, hle⟩ := (hgrows.of_append hrun).1 s hstep "b" hb 2 hbefore
  rw [hafter] at hj
  obtain rfl := Option.mem_some_iff.mp hj
  exact absurd hle (by decide)

end Inspection

end Cs457.Bank
