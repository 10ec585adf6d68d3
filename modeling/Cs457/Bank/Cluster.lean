import Cs457.Bank.Branch
import Cs457.Lib.Transition

/-!
# Bank — the cluster

The branches of a bank, the connections between them and the messages in flight. Channels are
first-in first-out and lossless; each branch runs one handler at a time. Every choice of the
scheduler, the network and the random source is in the action, so a run is a list of actions
(`Transition.exec step`). A step on which a handler throws has no successor: the exception
leaves `io_service.run` and ends the process.
-/

namespace Cs457.Bank

/-- `queue ch` holds the messages on their way to the end `ch`. -/
structure Cluster where
  branch : Name → Branch
  queue : Channel → List BranchMessage := fun _ => []
  connecting : List (PeerInfo × Channel) := []
  unaccepted : List Connection := []

inductive Action where
  /-- the controller sends `msg` on its connection to a branch -/
  | controllerSend (branch : Name) (msg : BranchMessage)
  /-- an `async_connect` completes -/
  | connect (peer : PeerInfo) (ch : Channel)
  /-- a branch accepts a connection -/
  | accept (branch : Name) (c : Connection)
  /-- the next message of a channel is read and handled -/
  | deliver (ch : Channel)
  /-- the next task of a branch's strand runs -/
  | runTask (branch : Name)
  /-- the timer of `do_send_money` fires -/
  | sendMoney (branch : Name) (i : ℕ) (attempts : List Branch.Attempt)
  deriving DecidableEq, Repr

namespace Cluster

/-- `send_branch_msg`: the message is queued for the other end. -/
def send (c : Cluster) (ch : Channel) (msg : BranchMessage) : Cluster :=
  { c with queue := fun x => if x = ch.remote then c.queue x ++ [msg] else c.queue x }

def applyEffect (c : Cluster) : Effect → Cluster
  | .send ch msg => c.send ch msg
  | .connect peer ch => { c with connecting := c.connecting ++ [(peer, ch)] }
  | .report _ => c

def setBranch (c : Cluster) (p : Name) (b : Branch) : Cluster :=
  { c with branch := fun x => if x = p then b else c.branch x }

/-- The branch `p` becomes `b` and its effects reach the network in order. -/
def update (c : Cluster) (p : Name) (r : Branch × List Effect) : Cluster :=
  r.2.foldl applyEffect (c.setBranch p r.1)

/-- The outcome of a handler, nothing when it throws. -/
def outcome : Except Fault (Branch × List Effect) → Option (Branch × List Effect)
  | .ok r => some r
  | .error _ => none

def deliver (c : Cluster) (ch : Channel) : Option Cluster :=
  match ch.host, c.queue ch with
  | some p, msg :: rest =>
    if ch.connection ∈ c.unaccepted then none
    else
      let c' : Cluster := { c with queue := fun x => if x = ch then rest else c.queue x }
      (outcome ((c.branch p).messageHandler msg ⟨(c.branch p).handlerName ch, ch⟩)).map
        fun r => c'.update p r
  | _, _ => none

def runTask (c : Cluster) (p : Name) : Option Cluster :=
  match (c.branch p).strand with
  | [] => none
  | t :: rest =>
    (outcome ({ c.branch p with strand := rest }.perform t)).map fun r => c.update p r

def sendMoney (c : Cluster) (p : Name) (i : ℕ) (attempts : List Branch.Attempt) : Option Cluster :=
  -- no other handler of the branch runs meanwhile, so nothing is credited inside the loop
  if (c.branch p).sending ∧ ∀ a ∈ attempts, a.credit = 0 then
    ((c.branch p).doSendMoney i attempts).map fun r => c.update p r
  else none

/-- The connection is up: the callback is posted to the opener's strand and the other end
may accept. -/
def connect (c : Cluster) (peer : PeerInfo) (ch : Channel) : Option Cluster :=
  match ch.host with
  | none => none
  | some p =>
    if (peer, ch) ∈ c.connecting then
      some { c.setBranch p ((c.branch p).post (.connected peer.name ch)) with
        connecting := c.connecting.erase (peer, ch)
        unaccepted := c.unaccepted ++ [ch.connection] }
    else none

def accept (c : Cluster) (p : Name) (k : Connection) : Option Cluster :=
  if k ∈ c.unaccepted ∧ Channel.host ⟨k, .acceptor⟩ = some p then
    some { c.setBranch p ((c.branch p).doAccept ⟨k, .acceptor⟩) with
      unaccepted := c.unaccepted.erase k }
  else none

def step (c : Cluster) : Action → Option Cluster
  | .controllerSend p msg => some (c.send ⟨.controller p, .opener⟩ msg)
  | .connect peer ch => c.connect peer ch
  | .accept p k => c.accept p k
  | .deliver ch => c.deliver ch
  | .runTask p => c.runTask p
  | .sendMoney p i attempts => c.sendMoney p i attempts

/-! ## What the network operations change -/

@[simp] theorem setBranch_self (c : Cluster) (p : Name) (b : Branch) :
    (c.setBranch p b).branch p = b := by simp [setBranch]

theorem setBranch_ne (c : Cluster) {p x : Name} (b : Branch) (h : x ≠ p) :
    (c.setBranch p b).branch x = c.branch x := by simp [setBranch, h]

/-- What the new branch has in common with the old one, all branches keep. -/
theorem setBranch_field {α : Type*} (f : Branch → α) (c : Cluster) {p : Name} {b : Branch}
    (h : f b = f (c.branch p)) (x : Name) : f ((c.setBranch p b).branch x) = f (c.branch x) := by
  by_cases hx : x = p
  · subst hx
    rw [setBranch_self, h]
  · rw [setBranch_ne c b hx]

@[simp] theorem setBranch_queue (c : Cluster) (p : Name) (b : Branch) :
    (c.setBranch p b).queue = c.queue := rfl

@[simp] theorem setBranch_connecting (c : Cluster) (p : Name) (b : Branch) :
    (c.setBranch p b).connecting = c.connecting := rfl

@[simp] theorem setBranch_unaccepted (c : Cluster) (p : Name) (b : Branch) :
    (c.setBranch p b).unaccepted = c.unaccepted := rfl

/-- What a branch sends changes no branch. -/
theorem foldl_applyEffect_branch (c : Cluster) (es : List Effect) :
    (es.foldl applyEffect c).branch = c.branch := by
  induction es generalizing c with
  | nil => rfl
  | cons e es ih =>
    rw [List.foldl_cons, ih]
    cases e <;> rfl

theorem foldl_applyEffect_unaccepted (c : Cluster) (es : List Effect) :
    (es.foldl applyEffect c).unaccepted = c.unaccepted := by
  induction es generalizing c with
  | nil => rfl
  | cons e es ih =>
    rw [List.foldl_cons, ih]
    cases e <;> rfl

/-- What a list of effects puts on the way to the end `ch`. -/
def sentTo (es : List Effect) (ch : Channel) : List BranchMessage :=
  es.filterMap fun e => match e with
    | .send x msg => if x.remote = ch then some msg else none
    | _ => none

/-- The connections a list of effects starts to open. -/
def opened (es : List Effect) : List (PeerInfo × Channel) :=
  es.filterMap fun e => match e with
    | .connect peer ch => some (peer, ch)
    | _ => none

/-- What is sent on a channel joins its queue in order. -/
theorem foldl_applyEffect_queue (c : Cluster) (es : List Effect) (ch : Channel) :
    (es.foldl applyEffect c).queue ch = c.queue ch ++ sentTo es ch := by
  induction es generalizing c with
  | nil => simp [sentTo]
  | cons e es ih =>
    rw [List.foldl_cons, ih]
    cases e with
    | send x msg =>
      by_cases h : x.remote = ch
      · subst h
        simp [applyEffect, send, sentTo]
      · have h' : ch ≠ x.remote := fun he => h he.symm
        simp [applyEffect, send, sentTo, h, h']
    | connect peer x => rfl
    | report text => rfl

/-- The connections that are opened wait for their handlers. -/
theorem foldl_applyEffect_connecting (c : Cluster) (es : List Effect) :
    (es.foldl applyEffect c).connecting = c.connecting ++ opened es := by
  induction es generalizing c with
  | nil => simp [opened]
  | cons e es ih =>
    rw [List.foldl_cons, ih]
    cases e with
    | send x msg => rfl
    | connect peer x => simp [applyEffect, opened]
    | report text => rfl

@[simp] theorem update_self (c : Cluster) (p : Name) (r : Branch × List Effect) :
    (c.update p r).branch p = r.1 := by
  rw [update, foldl_applyEffect_branch, setBranch_self]

theorem update_ne (c : Cluster) {p x : Name} (r : Branch × List Effect) (h : x ≠ p) :
    (c.update p r).branch x = c.branch x := by
  rw [update, foldl_applyEffect_branch, setBranch_ne c r.1 h]

/-- What the new branch has in common with the old one, all branches keep. -/
theorem update_field {α : Type*} (f : Branch → α) (c : Cluster) {p : Name}
    {r : Branch × List Effect} (h : f r.1 = f (c.branch p)) (x : Name) :
    f ((c.update p r).branch x) = f (c.branch x) := by
  rw [update, foldl_applyEffect_branch, setBranch_field f c h]

@[simp] theorem update_queue (c : Cluster) (p : Name) (r : Branch × List Effect) (ch : Channel) :
    (c.update p r).queue ch = c.queue ch ++ sentTo r.2 ch := by
  rw [update, foldl_applyEffect_queue, setBranch_queue]

/-- A branch that sends nothing changes no queue. -/
theorem update_silent_queue (c : Cluster) (p : Name) (b : Branch) (ch : Channel) :
    (c.update p (b, [])).queue ch = c.queue ch := by
  rw [update_queue, sentTo, List.filterMap_nil, List.append_nil]

@[simp] theorem update_connecting (c : Cluster) (p : Name) (r : Branch × List Effect) :
    (c.update p r).connecting = c.connecting ++ opened r.2 := by
  rw [update, foldl_applyEffect_connecting, setBranch_connecting]

@[simp] theorem update_unaccepted (c : Cluster) (p : Name) (r : Branch × List Effect) :
    (c.update p r).unaccepted = c.unaccepted := by
  rw [update, foldl_applyEffect_unaccepted, setBranch_unaccepted]

theorem applyEffect_setBranch (c : Cluster) (p : Name) (b : Branch) (e : Effect) :
    applyEffect (c.setBranch p b) e = (applyEffect c e).setBranch p b := by
  cases e <;> rfl

/-- Effects do not look at the branches, so they may be applied before a branch is set. -/
theorem foldl_applyEffect_setBranch (c : Cluster) (p : Name) (b : Branch) (es : List Effect) :
    es.foldl applyEffect (c.setBranch p b) = (es.foldl applyEffect c).setBranch p b := by
  induction es generalizing c with
  | nil => rfl
  | cons e es ih => rw [List.foldl_cons, List.foldl_cons, applyEffect_setBranch, ih]

/-- Replacing the branch again keeps the effects of the first replacement. -/
theorem update_update (c : Cluster) (p : Name) (b b' : Branch) (es : List Effect) :
    (c.update p (b, es)).update p (b', []) = c.update p (b', es) := by
  simp only [update, List.foldl_nil, foldl_applyEffect_setBranch]
  simp only [setBranch, Cluster.mk.injEq, and_self, and_true]
  funext x
  split <;> rfl

/-- Replacing the branch again before its effects are applied. -/
theorem update_update' (c : Cluster) (p : Name) (b : Branch) (r : Branch × List Effect) :
    (c.update p (b, [])).update p r = c.update p r := by
  simp only [update, List.foldl_nil]
  congr 1
  simp only [setBranch, Cluster.mk.injEq, and_self, and_true]
  funext x
  split <;> rfl

/-! ## What a step can be

One inversion lemma per action: everything a step can do, with its guards. -/

/-- A handler that throws has no outcome. -/
theorem outcome_eq_some {e : Except Fault (Branch × List Effect)} {r : Branch × List Effect} :
    outcome e = some r ↔ e = .ok r := by
  cases e with
  | error f => simp [outcome]
  | ok x => simp [outcome]

/-- A delivery takes the head of a queue and hands it to the branch at that end, once the connection
has been accepted. -/
theorem deliver_eq_some {c c' : Cluster} {ch : Channel} (h : c.deliver ch = some c') :
    ∃ p msg rest r, ch.host = some p ∧ c.queue ch = msg :: rest ∧
      ch.connection ∉ c.unaccepted ∧
      (c.branch p).messageHandler msg ⟨(c.branch p).handlerName ch, ch⟩ = .ok r ∧
      c' =
        ({ c with queue := fun x => if x = ch then rest else c.queue x } : Cluster).update p r := by
  unfold deliver at h
  split at h
  · next p msg rest hp hq =>
    split at h
    · cases h
    · next hacc =>
      obtain ⟨r, hr, rfl⟩ := Option.map_eq_some_iff.mp h
      exact ⟨p, msg, rest, r, hp, hq, hacc, outcome_eq_some.mp hr, rfl⟩
  · cases h

/-- A task is taken off the strand before it runs. -/
theorem runTask_eq_some {c c' : Cluster} {p : Name} (h : c.runTask p = some c') :
    ∃ t rest r, (c.branch p).strand = t :: rest ∧
      ({ c.branch p with strand := rest } : Branch).perform t = .ok r ∧ c' = c.update p r := by
  unfold runTask at h
  split at h
  · cases h
  · next t rest ht =>
    obtain ⟨r, hr, rfl⟩ := Option.map_eq_some_iff.mp h
    exact ⟨t, rest, r, ht, outcome_eq_some.mp hr, rfl⟩

/-- One call of `do_send_money`: a Transfer of what has been taken off, on one of the channels,
unless it is nothing. -/
theorem sendMoney_eq_some {c c' : Cluster} {p : Name} {i : ℕ} {attempts : List Branch.Attempt}
    (h : c.sendMoney p i attempts = some c') :
    ∃ e toSend, e ∈ (c.branch p).channels.entries ∧ toSend ≤ (c.branch p).money ∧
      c' = c.update p ({ c.branch p with money := (c.branch p).money - toSend },
        if toSend > 0 then [.send e.2 (.transfer toSend)] else []) := by
  unfold sendMoney at h
  split at h
  · next hguard =>
    obtain ⟨r, hr, rfl⟩ := Option.map_eq_some_iff.mp h
    obtain ⟨e, toSend, he, hle, rfl⟩ := Branch.doSendMoney_eq_some hguard.2 hr
    exact ⟨e, toSend, he, hle, rfl⟩
  · cases h

/-- A completed connect posts its handler at the branch that dialled. -/
theorem connect_eq_some {c c' : Cluster} {peer : PeerInfo} {ch : Channel}
    (h : c.connect peer ch = some c') :
    ∃ p, ch.host = some p ∧ (peer, ch) ∈ c.connecting ∧
      c' = { c.setBranch p ((c.branch p).post (.connected peer.name ch)) with
        connecting := c.connecting.erase (peer, ch)
        unaccepted := c.unaccepted ++ [ch.connection] } := by
  unfold connect at h
  split at h
  · cases h
  · next p hp =>
    split at h
    · next hmem => exact ⟨p, hp, hmem, (Option.some.inj h).symm⟩
    · cases h

/-- A connection is accepted once, by the branch at its acceptor's end. -/
theorem accept_eq_some {c c' : Cluster} {p : Name} {k : Connection}
    (h : c.accept p k = some c') :
    k ∈ c.unaccepted ∧ Channel.host ⟨k, .acceptor⟩ = some p ∧
      c' = { c.setBranch p ((c.branch p).doAccept ⟨k, .acceptor⟩) with
        unaccepted := c.unaccepted.erase k } := by
  unfold accept at h
  split at h
  · next hguard => exact ⟨hguard.1, hguard.2, (Option.some.inj h).symm⟩
  · cases h

end Cluster

/-! ## What a handler and a task can do

What a message other than InitBranch makes the branch post and credit, and what a task makes
it enter and send. -/

namespace Branch

/-- The task a message posts. -/
def posted (msg : BranchMessage) (ci : ChannelInfo) : List Task :=
  match msg with
  | .initSnapshot id => [.initSnapshot id]
  | .marker id => [.marker id ci]
  | .retrieveSnapshot id => [.retrieveSnapshot id ci]
  | .hello name => [.hello name ci]
  | _ => []

/-- What a message adds to `d_money`. -/
def credited : BranchMessage → UInt64
  | .transfer money => money
  | _ => 0

/-- A message handler other than that of InitBranch sends nothing at once and posts at most one
task. -/
theorem messageHandler_ok {b : Branch} {msg : BranchMessage} {ci : ChannelInfo}
    {r : Branch × List Effect} (h : b.messageHandler msg ci = .ok r) :
    (∃ m, msg = .initBranch m ∧ b.initBranchHandler m = .ok r) ∨
      (∀ m, msg ≠ .initBranch m) ∧ r.2 = [] ∧ r.1.name = b.name ∧ r.1.channels = b.channels ∧
        r.1.knownPeers = b.knownPeers ∧ r.1.strand = b.strand ++ posted msg ci ∧
        r.1.money = b.money + credited msg := by
  cases msg with
  | initBranch m => exact Or.inl ⟨m, rfl, h⟩
  | _ =>
    obtain rfl := Except.ok.inj h
    refine Or.inr ⟨fun m hm => (by cases hm), rfl, rfl, rfl, rfl, ?_, ?_⟩ <;>
      simp [posted, credited, post, transferHandler]

/-- The entry a task makes in `d_channels`. -/
def entered : Task → Option (Name × Channel)
  | .hello name ci => some (name, ci.second)
  | .connected name ch => some (name, ch)
  | _ => none

/-- Starting a snapshot sends markers only. -/
theorem startSnapshot_sent {b : Branch} {id : UInt64} {ch : Channel} {m : BranchMessage}
    (h : m ∈ Cluster.sentTo (b.startSnapshot id).2 ch) : m = .marker id := by
  simp only [Cluster.sentTo, startSnapshot, List.mem_filterMap, List.mem_map] at h
  obtain ⟨e, ⟨x, _, rfl⟩, he⟩ := h
  simp only [Option.ite_none_right_eq_some, Option.some.injEq] at he
  exact he.2.symm

/-- Starting a snapshot opens no connection. -/
theorem startSnapshot_opened (b : Branch) (id : UInt64) :
    Cluster.opened (b.startSnapshot id).2 = [] := by
  rw [Cluster.opened, startSnapshot, List.filterMap_eq_nil_iff]
  intro e he
  obtain ⟨x, _, rfl⟩ := List.mem_map.mp he
  rfl

/-- A task keeps the name, the peers, the balance and the rest of the strand. It sends a
Hello on the channel it enters as connected; anything else it sends belongs to a snapshot. -/
theorem perform_ok {b : Branch} {t : Task} {r : Branch × List Effect} (h : b.perform t = .ok r) :
    r.1.name = b.name ∧ r.1.knownPeers = b.knownPeers ∧ r.1.money = b.money ∧
      r.1.strand = b.strand ∧ Cluster.opened r.2 = [] ∧
      r.1.channels = (match entered t with
        | some (name, ch) => b.channels.emplace name ch
        | none => b.channels) ∧
      ∀ ch m, m ∈ Cluster.sentTo r.2 ch → (∃ id, m = .marker id) ∨ (∃ s, m = .returnSnapshot s) ∨
        ∃ name x, t = .connected name x ∧ ch = x.remote ∧ m = .hello b.name := by
  -- One case for each task of the strand; `startSnapshot` sends only Markers, a retrieval only a
  -- ReturnSnapshot.
  cases t with
  | initSnapshot id =>
    obtain rfl := Except.ok.inj h
    exact ⟨rfl, rfl, rfl, rfl, startSnapshot_opened b id, rfl,
      fun ch m hm => Or.inl ⟨id, startSnapshot_sent hm⟩⟩
  | marker id ci =>
    obtain rfl := Except.ok.inj h
    unfold markerTask
    split
    · -- The Marker of the snapshot in progress closes a channel and sends nothing.
      exact ⟨rfl, rfl, rfl, rfl, rfl, rfl, fun ch m hm => (by cases hm)⟩
    · exact ⟨rfl, rfl, rfl, rfl, startSnapshot_opened b id, rfl,
        fun ch m hm => Or.inl ⟨id, startSnapshot_sent hm⟩⟩
  | retrieveSnapshot id ci =>
    rcases retrieveSnapshotTask_eq h with ⟨msg, rfl⟩ | ⟨text, rfl⟩
    · refine ⟨rfl, rfl, rfl, rfl, rfl, rfl, fun ch m hm => Or.inr (Or.inl ?_)⟩
      simp only [Cluster.sentTo, List.mem_filterMap, List.mem_singleton] at hm
      obtain ⟨e, rfl, he⟩ := hm
      simp only [Option.ite_none_right_eq_some, Option.some.injEq] at he
      exact ⟨_, he.2.symm⟩
    · exact ⟨rfl, rfl, rfl, rfl, rfl, rfl, fun ch m hm => (by cases hm)⟩
  | hello name ci =>
    obtain rfl := Except.ok.inj h
    exact ⟨rfl, rfl, rfl, rfl, rfl, rfl, fun ch m hm => (by cases hm)⟩
  | connected name x =>
    obtain rfl := Except.ok.inj h
    refine ⟨rfl, rfl, rfl, rfl, rfl, rfl, fun ch m hm => Or.inr (Or.inr ⟨name, x, rfl, ?_⟩)⟩
    simp only [Cluster.sentTo, connectedTask, List.mem_filterMap, List.mem_singleton] at hm
    obtain ⟨e, rfl, he⟩ := hm
    simp only [Option.ite_none_right_eq_some, Option.some.injEq] at he
    exact ⟨he.1.symm, he.2.symm⟩

end Branch

end Cs457.Bank
