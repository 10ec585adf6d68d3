import Cs457.Bank.Cluster

/-!
# Bank — one branch and its snapshot

A single branch among peers that may send it anything, with a history beside it: the messages
that it has handled, numbered from zero, and for its latest snapshot the Transfers that are
counted in it. A Transfer is credited when it is handled, while a Marker is handled by a task
that runs later.

* **`Recorded.step`** — `d_money` and `d_snapshot` are what the history says.
* **`retrieve_answered_iff`** — when RetrieveSnapshot is answered.
* **`late_uncounted_iff`** — when a Transfer behind a Marker stays out of the snapshot.
-/

namespace Cs457.Bank

open Transition

inductive BranchEvent where
  | message (ch : Channel) (msg : BranchMessage)
  | accept (ch : Channel)
  /-- the callback of an `async_connect` is posted -/
  | connected (peer : Name) (ch : Channel)
  | sendMoney (i : ℕ) (attempts : List Branch.Attempt)
  /-- the next task of `d_strand` runs -/
  | task
  deriving DecidableEq, Repr

/-- The history of a snapshot since it was created: the Markers handled, and the Transfers
counted in the balance and for each peer. `others` is what the balance holds beside Transfers. -/
structure Taken where
  id : UInt64
  peers : List Name
  others : UInt64
  inBalance : List ℕ
  marked : List Name := []
  inTransit : Name → List ℕ := fun _ => []

namespace Taken

/-- The Marker of a peer is handled. -/
def mark (t : Taken) (name : Name) : Taken := { t with marked := name :: t.marked }

/-- The `n`-th message is a Transfer of a peer. It counts until the peer's Marker is handled. -/
def count (t : Taken) (name : Name) (n : ℕ) : Taken :=
  if name ∈ t.peers ∧ name ∉ t.marked
    then { t with inTransit := Function.update t.inTransit name (t.inTransit name ++ [n]) }
    else t

@[simp] theorem count_id (t : Taken) (name : Name) (n : ℕ) : (t.count name n).id = t.id := by
  unfold count
  split <;> rfl

@[simp] theorem count_inBalance (t : Taken) (name : Name) (n : ℕ) :
    (t.count name n).inBalance = t.inBalance := by
  unfold count
  split <;> rfl

/-- What a Transfer adds to the record of a snapshot: its number, for its sender, if that is a peer
whose Marker has not been handled. -/
theorem mem_inTransit_count {t : Taken} {name p : Name} {n k : ℕ} :
    k ∈ (t.count name n).inTransit p ↔
      k ∈ t.inTransit p ∨ (p = name ∧ k = n ∧ name ∈ t.peers ∧ name ∉ t.marked) := by
  unfold count
  split
  · next hcounts =>
    by_cases hp : p = name
    · subst hp
      simp [hcounts.1, hcounts.2]
    · simp [hp]
  · next hcounts => simp [hcounts]

end Taken

/-- A branch with its history. `credited` lists the Transfers in `d_money` since InitBranch has
set it, and `others` is the rest of `d_money`. -/
structure Watched where
  branch : Branch
  received : List (Channel × BranchMessage) := []
  others : UInt64 := 0
  credited : List ℕ := []
  taken : Option Taken := none

namespace Watched

/-- A branch that has just been constructed. -/
def start (name : Name) : Watched where
  branch := { name := name }

/-- A snapshot created now. -/
def fresh (w : Watched) (id : UInt64) : Taken where
  id := id
  peers := w.branch.knownPeers.map PeerInfo.name
  others := w.others
  inBalance := w.credited

/-- The history of a message that leaves `b` behind. -/
def handled (w : Watched) (ch : Channel) (msg : BranchMessage) (b : Branch) : Watched :=
  let received := w.received ++ [(ch, msg)]
  match msg with
  | .transfer _ => { w with
      branch := b
      received := received
      credited := w.credited ++ [w.received.length]
      taken := w.taken.map fun t => t.count (w.branch.handlerName ch) w.received.length }
  | .initBranch msg => { w with
      branch := b
      received := received
      others := msg.balance
      credited := [] }
  | _ => { w with branch := b, received := received }

/-- The history of a task that leaves `b` behind. -/
def ran (w : Watched) (t : Task) (b : Branch) : Watched :=
  match t with
  | .initSnapshot id => { w with branch := b, taken := some (w.fresh id) }
  | .marker id ci => { w with
      branch := b
      taken := some (((w.taken.filter fun t => t.id = id).getD (w.fresh id)).mark ci.first) }
  | _ => { w with branch := b }

def step (w : Watched) : BranchEvent → Option Watched
  | .message ch msg =>
    (Cluster.outcome (w.branch.messageHandler msg ⟨w.branch.handlerName ch, ch⟩)).map
      fun r => w.handled ch msg r.1
  | .accept ch => some { w with branch := w.branch.doAccept ch }
  | .connected peer ch => some { w with branch := w.branch.post (.connected peer ch) }
  | .sendMoney i attempts =>
    if w.branch.sending ∧ ∀ a ∈ attempts, a.credit = 0 then
      (w.branch.doSendMoney i attempts).map fun r => { w with
        branch := r.1
        -- what is sent leaves `d_money`
        others := w.others - (w.branch.money - r.1.money) }
    else none
  | .task =>
    match w.branch.strand with
    | [] => none
    | t :: rest =>
      (Cluster.outcome ({ w.branch with strand := rest }.perform t)).map fun r => w.ran t r.1

end Watched

/-! ## The amounts of the counted Transfers -/

/-- The amount of a Transfer, by its number. -/
def amount (received : List (Channel × BranchMessage)) (n : ℕ) : UInt64 :=
  match received[n]? with
  | some (_, .transfer money) => money
  | _ => 0

def sumOf (received : List (Channel × BranchMessage)) (ns : List ℕ) : UInt64 :=
  ns.foldr (fun n sum => amount received n + sum) 0

/-- The sum over the recorded numbers, modulo `2 ^ 64` as `record_tx` adds. -/
theorem sumOf_append (received : List (Channel × BranchMessage)) (ns ms : List ℕ) :
    sumOf received (ns ++ ms) = sumOf received ns + sumOf received ms := by
  induction ns with
  | nil => simp [sumOf]
  | cons n ns ih =>
    simp only [sumOf, List.cons_append, List.foldr_cons] at ih ⊢
    rw [ih, UInt64.add_assoc]

/-- Later messages do not change an amount that has been recorded. -/
theorem amount_concat {received : List (Channel × BranchMessage)} {n : ℕ}
    (hn : n < received.length) (entry : Channel × BranchMessage) :
    amount (received ++ [entry]) n = amount received n := by
  unfold amount
  rw [List.getElem?_append_left hn]

/-- Nor the sums. -/
theorem sumOf_concat {received : List (Channel × BranchMessage)} {ns : List ℕ}
    (hns : ∀ n ∈ ns, n < received.length) (entry : Channel × BranchMessage) :
    sumOf (received ++ [entry]) ns = sumOf received ns := by
  induction ns with
  | nil => rfl
  | cons n ns ih =>
    have htail := ih fun m hm => hns m (List.mem_cons_of_mem n hm)
    simp only [sumOf, List.foldr_cons] at htail ⊢
    rw [htail, amount_concat (hns n List.mem_cons_self)]

theorem sumOf_transfer (received : List (Channel × BranchMessage)) (ch : Channel)
    (money : UInt64) : sumOf (received ++ [(ch, .transfer money)]) [received.length] = money := by
  simp [sumOf, amount]

/-! ## The invariant -/

/-- A snapshot is the one that its history tells of. -/
structure Snapshot.Matches (received : List (Channel × BranchMessage)) (s : Snapshot) (t : Taken) :
    Prop where
  id : s.id = t.id
  balance : s.balance = t.others + sumOf received t.inBalance
  states : ∀ x, s.states.lookup x = if x ∈ t.peers
    then some (if x ∈ t.marked then .completed (sumOf received (t.inTransit x))
      else .recording (sumOf received (t.inTransit x)))
    else none
  inBalance_lt : ∀ n ∈ t.inBalance, n < received.length
  inTransit_lt : ∀ x, ∀ n ∈ t.inTransit x, n < received.length

/-- **The invariant of the history.** -/
structure Watched.Recorded (w : Watched) : Prop where
  money : w.branch.money = w.others + sumOf w.received w.credited
  credited_lt : ∀ n ∈ w.credited, n < w.received.length
  snapshot : Option.Rel (Snapshot.Matches w.received) w.branch.snapshot w.taken

namespace Snapshot.Matches

variable {received : List (Channel × BranchMessage)} {s : Snapshot} {t : Taken}

/-- One more message does not change what was counted before. -/
theorem concat (h : s.Matches received t) (entry : Channel × BranchMessage) :
    s.Matches (received ++ [entry]) t where
  id := h.id
  balance := by rw [sumOf_concat h.inBalance_lt, h.balance]
  states x := by rw [sumOf_concat (h.inTransit_lt x), h.states]
  inBalance_lt n hn := by
    rw [List.length_append]
    exact Nat.lt_add_right _ (h.inBalance_lt n hn)
  inTransit_lt x n hn := by
    rw [List.length_append]
    exact Nat.lt_add_right _ (h.inTransit_lt x n hn)

/-- `Snapshot::marker`. -/
theorem marker (h : s.Matches received t) (name : Name) :
    (s.marker name).Matches received (t.mark name) where
  id := (Snapshot.marker_id s name).trans h.id
  balance := (Snapshot.marker_balance s name).trans h.balance
  states x := by
    rw [Snapshot.lookup_marker, h.states]
    by_cases hpeer : x ∈ t.peers
    · by_cases hmarked : x ∈ t.marked
      · simp [Taken.mark, hpeer, hmarked]
      · by_cases hx : x = name
        · subst hx
          simp [Taken.mark, hpeer, hmarked]
        · simp [Taken.mark, hpeer, hmarked, hx]
    · simp [Taken.mark, hpeer]
  inBalance_lt := h.inBalance_lt
  inTransit_lt := h.inTransit_lt

/-- `Snapshot::record_tx`, for a Transfer that has just been received. -/
theorem recordTx (h : s.Matches received t) (ch : Channel) (name : Name) (money : UInt64) :
    (s.recordTx name money).Matches (received ++ [(ch, .transfer money)])
      (t.count name received.length) := by
  have hnext := h.concat (ch, .transfer money)
  unfold Taken.count
  split
  · next hcounts =>
    refine ⟨(Snapshot.recordTx_id s name money).trans h.id,
      (Snapshot.recordTx_balance s name money).trans hnext.balance, fun x => ?_,
      hnext.inBalance_lt, fun x n hn => ?_⟩
    · rw [Snapshot.lookup_recordTx, hnext.states]
      by_cases hx : x = name
      · subst hx
        simp only [Function.update_self, sumOf_append, sumOf_transfer]
        -- the sender is a peer and its channel is open
        simp [hcounts.1, hcounts.2]
      · simp only [Function.update_of_ne hx]
        by_cases hpeer : x ∈ t.peers
        · by_cases hmarked : x ∈ t.marked
          · simp [hpeer, hmarked]
          · simp [hpeer, hmarked, hx]
        · simp [hpeer]
    · by_cases hx : x = name
      · subst hx
        simp only [Function.update_self, List.mem_append, List.mem_singleton] at hn
        rcases hn with hold | rfl
        · exact hnext.inTransit_lt x n hold
        · simp
      · simp only [Function.update_of_ne hx] at hn
        exact hnext.inTransit_lt x n hn
  · next hcounts =>
    refine ⟨(Snapshot.recordTx_id s name money).trans h.id,
      (Snapshot.recordTx_balance s name money).trans hnext.balance, fun x => ?_,
      hnext.inBalance_lt, hnext.inTransit_lt⟩
    rw [Snapshot.lookup_recordTx, hnext.states]
    by_cases hpeer : x ∈ t.peers
    · by_cases hmarked : x ∈ t.marked
      · simp [hpeer, hmarked]
      · have hx : x ≠ name := by
          rintro rfl
          -- a peer whose channel is open would be counted
          exact hcounts ⟨hpeer, hmarked⟩
        simp [hpeer, hmarked, hx]
    · simp [hpeer]

/-- A completed state is that of a peer whose Marker is in. -/
theorem lookup_completed (h : s.Matches received t) (x : Name) (sum : UInt64) :
    s.states.lookup x = some (.completed sum) ↔
      x ∈ t.peers ∧ x ∈ t.marked ∧ sum = sumOf received (t.inTransit x) := by
  rw [h.states]
  by_cases hpeer : x ∈ t.peers
  · by_cases hmarked : x ∈ t.marked
    · simp [hpeer, hmarked, eq_comm]
    · simp [hpeer, hmarked]
  · simp [hpeer]

/-- **`Snapshot::to_message` succeeds** exactly when the Marker of every peer is in. -/
theorem toMessage_ok_iff (h : s.Matches received t) :
    (∃ msg, s.toMessage = .ok msg) ↔ ∀ p ∈ t.peers, p ∈ t.marked := by
  rw [Snapshot.exists_toMessage_iff]
  constructor
  · intro hall p hp
    obtain ⟨sum, hsum⟩ := hall p _ ((h.states p).trans (if_pos hp))
    exact ((h.lookup_completed p sum).mp (by rw [h.states, if_pos hp, hsum])).2.1
  · intro hall x v hv
    rw [h.states] at hv
    split at hv
    · next hpeer =>
      rw [if_pos (hall x hpeer)] at hv
      exact ⟨_, (Option.some.inj hv).symm⟩
    · cases hv

end Snapshot.Matches

/-- The branch and its history do the same to the snapshot. -/
theorem rel_map {α β γ δ : Type} {R : α → β → Prop} {S : γ → δ → Prop} {f : α → γ} {g : β → δ}
    {a : Option α} {b : Option β} (h : Option.Rel R a b) (hfg : ∀ x y, R x y → S (f x) (g y)) :
    Option.Rel S (a.map f) (b.map g) := by
  cases h with
  | none => exact .none
  | some hxy => exact .some (hfg _ _ hxy)

namespace Watched

variable {w w' : Watched}

theorem recorded_start (name : Name) : (start name).Recorded where
  money := rfl
  credited_lt := List.forall_mem_nil _
  snapshot := .none

/-- The branch holds a snapshot exactly when its history has one, and then they match. -/
theorem Recorded.held (hw : w.Recorded) :
    (w.branch.snapshot = none ∧ w.taken = none) ∨
      ∃ s t, w.branch.snapshot = some s ∧ w.taken = some t ∧ s.Matches w.received t := by
  have hsnapshot := hw.snapshot
  generalize hb : w.branch.snapshot = held at hsnapshot
  generalize ht : w.taken = taken at hsnapshot
  cases hsnapshot with
  | none => exact Or.inl ⟨rfl, rfl⟩
  | some hmatch => exact Or.inr ⟨_, _, rfl, rfl, hmatch⟩

/-- A snapshot that is created now. -/
theorem Recorded.create (hw : w.Recorded) (id : UInt64) :
    (Snapshot.create id w.branch.money w.branch.knownPeers).Matches w.received (w.fresh id) where
  id := rfl
  balance := hw.money
  states x := by
    rw [Snapshot.lookup_create]
    simp [fresh, sumOf]
  inBalance_lt := hw.credited_lt
  inTransit_lt _ := List.forall_mem_nil _

/-- A message other than InitBranch and Transfer, whatever the branch posts. -/
theorem Recorded.receive (hw : w.Recorded) (entry : Channel × BranchMessage) (b : Branch)
    (hmoney : b.money = w.branch.money) (hsnapshot : b.snapshot = w.branch.snapshot) :
    Recorded { w with branch := b, received := w.received ++ [entry] } where
  money := by rw [sumOf_concat hw.credited_lt, hmoney, hw.money]
  credited_lt n hn := by
    rw [List.length_append]
    exact Nat.lt_add_right _ (hw.credited_lt n hn)
  snapshot := by
    have hsame := rel_map (f := id) (g := id) hw.snapshot fun _ _ h => h.concat entry
    rw [Option.map_id_apply, Option.map_id_apply] at hsame
    rwa [hsnapshot]

/-- InitBranch overwrites the money and leaves the snapshot. -/
theorem initBranchHandler_ok {b : Branch} {msg : InitBranch} {r : Branch × List Effect}
    (h : b.initBranchHandler msg = .ok r) :
    r.1.money = msg.balance ∧ r.1.snapshot = b.snapshot := by
  unfold Branch.initBranchHandler at h
  simp only at h
  split at h
  · cases h
  · cases h
    exact ⟨rfl, rfl⟩

/-- A message that is handled: a Transfer is counted by the money and by the snapshot that records
it. -/
theorem Recorded.handled (hw : w.Recorded) {ch : Channel} {msg : BranchMessage}
    {r : Branch × List Effect}
    (h : w.branch.messageHandler msg ⟨w.branch.handlerName ch, ch⟩ = .ok r) :
    (w.handled ch msg r.1).Recorded := by
  cases msg with
  | transfer money =>
    cases h
    refine ⟨?_, ?_, ?_⟩
    · show w.branch.money + money = _
      simp only [Watched.handled, sumOf_append, sumOf_transfer]
      -- the credit is counted with those before it
      rw [sumOf_concat hw.credited_lt, hw.money, UInt64.add_assoc]
    · intro n hn
      simp only [Watched.handled, List.mem_append, List.mem_singleton] at hn
      simp only [Watched.handled, List.length_append, List.length_singleton]
      rcases hn with hold | rfl
      · exact Nat.lt_add_right _ (hw.credited_lt n hold)
      · exact Nat.lt_add_one _
    · exact rel_map hw.snapshot fun _ _ hs => hs.recordTx ch (w.branch.handlerName ch) money
  | initBranch msg =>
    obtain ⟨hmoney, hsnapshot⟩ := initBranchHandler_ok h
    refine ⟨?_, List.forall_mem_nil _, ?_⟩
    · show r.1.money = msg.balance + 0
      rw [hmoney, UInt64.add_zero]
    · have hnext := hw.receive (ch, .initBranch msg) w.branch rfl rfl
      show Option.Rel _ r.1.snapshot w.taken
      rw [hsnapshot]
      exact hnext.snapshot
  | initSnapshot id =>
    cases h
    exact hw.receive (ch, .initSnapshot id) _ rfl rfl
  | marker id =>
    cases h
    exact hw.receive (ch, .marker id) _ rfl rfl
  | retrieveSnapshot id =>
    cases h
    exact hw.receive (ch, .retrieveSnapshot id) _ rfl rfl
  | returnSnapshot m =>
    cases h
    exact hw.receive (ch, .returnSnapshot m) _ rfl rfl
  | hello name =>
    cases h
    exact hw.receive (ch, .hello name) _ rfl rfl
  | notSet =>
    cases h
    exact hw.receive (ch, .notSet) _ rfl rfl

/-- A task that runs: InitSnapshot and the first Marker start a record, a Marker ends that of its
channel. -/
theorem Recorded.ran (hw : w.Recorded) {t : Task} {r : Branch × List Effect}
    (h : w.branch.perform t = .ok r) : (w.ran t r.1).Recorded := by
  cases t with
  | initSnapshot id =>
    cases h
    exact ⟨hw.money, hw.credited_lt, .some (hw.create id)⟩
  | marker id ci =>
    cases h
    have hcreate := hw.create id
    unfold Watched.ran Branch.markerTask
    rcases hw.held with ⟨hb, ht⟩ | ⟨s, t, hb, ht, hmatch⟩
    · -- no snapshot yet: the marker starts one and closes its own channel
      rw [hb, ht, if_neg (by simp)]
      exact ⟨hw.money, hw.credited_lt, .some (hcreate.marker ci.first)⟩
    · rw [hb, ht]
      by_cases hid : t.id = id
      · -- a marker of the running snapshot closes its channel
        have hclose : (w.branch.closeChannel ci.first).snapshot = some (s.marker ci.first) := by
          rw [Branch.closeChannel, hb, Option.map_some]
        rw [if_pos (by rw [Option.map_some, hmatch.id, hid])]
        simp only [Option.filter_some, hid, decide_true, if_true, Option.getD_some]
        refine ⟨hw.money, hw.credited_lt, ?_⟩
        show Option.Rel _ (w.branch.closeChannel ci.first).snapshot _
        rw [hclose]
        exact .some (hmatch.marker ci.first)
      · -- a marker of another snapshot replaces the running one
        have hne : ¬ Option.map Snapshot.id (some s) = some id := by
          rw [Option.map_some, hmatch.id, Option.some.injEq]
          exact hid
        rw [if_neg hne]
        simp only [Option.filter_some, hid, decide_false, Bool.false_eq_true, if_false,
          Option.getD_none]
        exact ⟨hw.money, hw.credited_lt, .some (hcreate.marker ci.first)⟩
  | retrieveSnapshot id ci =>
    rcases Branch.retrieveSnapshotTask_eq h with ⟨msg, rfl⟩ | ⟨text, rfl⟩
    · exact ⟨hw.money, hw.credited_lt, hw.snapshot⟩
    · exact ⟨hw.money, hw.credited_lt, hw.snapshot⟩
  | hello name ci =>
    cases h
    exact ⟨hw.money, hw.credited_lt, hw.snapshot⟩
  | connected name ch =>
    cases h
    exact ⟨hw.money, hw.credited_lt, hw.snapshot⟩

/-- **The invariant rule's step.** -/
theorem Recorded.step (hw : w.Recorded) {ev : BranchEvent} (h : w.step ev = some w') :
    w'.Recorded := by
  cases ev with
  | message ch msg =>
    obtain ⟨r, hr, rfl⟩ := Option.map_eq_some_iff.mp h
    exact hw.handled (Cluster.outcome_eq_some.mp hr)
  | accept ch =>
    cases h
    exact ⟨hw.money, hw.credited_lt, hw.snapshot⟩
  | connected peer ch =>
    cases h
    exact ⟨hw.money, hw.credited_lt, hw.snapshot⟩
  -- A draw lowers the balance and `others` alike.
  | sendMoney i attempts =>
    simp only [Watched.step] at h
    split at h
    · next hguard =>
      obtain ⟨r, hr, rfl⟩ := Option.map_eq_some_iff.mp h
      obtain ⟨e, toSend, -, hle, rfl⟩ := Branch.doSendMoney_eq_some hguard.2 hr
      refine ⟨?_, hw.credited_lt, hw.snapshot⟩
      show w.branch.money - toSend
        = w.others - (w.branch.money - (w.branch.money - toSend)) + sumOf w.received w.credited
      rw [hw.money]
      grind
    · cases h
  | task =>
    simp only [Watched.step] at h
    split at h
    · cases h
    · next t rest hstrand =>
      obtain ⟨r, hr, rfl⟩ := Option.map_eq_some_iff.mp h
      -- The task has left the strand, which the record does not look at.
      have hrest : Recorded { w with branch := { w.branch with strand := rest } } :=
        ⟨hw.money, hw.credited_lt, hw.snapshot⟩
      have hran := hrest.ran (Cluster.outcome_eq_some.mp hr)
      cases t <;> exact hran

/-- The record of a branch is right in every state it reaches. -/
theorem recorded_exec {name : Name} {evs : List BranchEvent}
    (hrun : exec step (start name) evs = some w) : w.Recorded :=
  exec_inv (fun _ _ _ hw hstep => hw.step hstep) (recorded_start name) hrun

/-! ## Transfers behind a Marker -/

/-- The `n`-th message is a Transfer, and on its channel the Marker of `id` has come before. -/
def Late (received : List (Channel × BranchMessage)) (id : UInt64) (n : ℕ) : Prop :=
  ∃ m < n, ∃ ch money, received[m]? = some (ch, .marker id) ∧
    received[n]? = some (ch, .transfer money)

/-- No such Transfer is counted in the snapshot, in its balance or for a peer. -/
def NothingLate (w : Watched) : Prop :=
  ∀ t ∈ w.taken, (∀ n ∈ t.inBalance, ¬ Late w.received t.id n) ∧
    ∀ p, ∀ n ∈ t.inTransit p, ¬ Late w.received t.id n

/-- The id of the snapshot that a task creates. -/
def creates (w : Watched) : Task → Option UInt64
  | .initSnapshot id => some id
  | .marker id _ => if w.taken.map Taken.id = some id then none else some id
  | _ => none

/-- **The condition on a step.** A Transfer that is handled on a channel after the Marker of the
current snapshot finds the sender completed, and no snapshot is created after a Transfer has
been handled behind its Marker. -/
def InTime (w : Watched) : BranchEvent → Prop
  | .message ch (.transfer _) => ∀ t ∈ w.taken, (ch, .marker t.id) ∈ w.received →
      w.branch.handlerName ch ∈ t.peers → w.branch.handlerName ch ∈ t.marked
  | .task => ∀ task ∈ w.branch.strand.head?, ∀ id ∈ w.creates task,
      ∀ n ∈ w.credited, ¬ Late w.received id n
  | _ => True

/-- Whether a Transfer came late is settled when it comes. -/
theorem late_concat {received : List (Channel × BranchMessage)} {n : ℕ} (hn : n < received.length)
    (entry : Channel × BranchMessage) (id : UInt64) :
    Late (received ++ [entry]) id n ↔ Late received id n := by
  unfold Late
  rw [List.getElem?_append_left hn]
  refine exists_congr fun m => and_congr_right fun hm => ?_
  rw [List.getElem?_append_left (Nat.lt_trans hm hn)]

/-- A Transfer that has just been received. -/
theorem late_transfer (received : List (Channel × BranchMessage)) (ch : Channel)
    (money id : UInt64) :
    Late (received ++ [(ch, .transfer money)]) id received.length ↔
      (ch, .marker id) ∈ received := by
  rw [List.mem_iff_getElem?]
  constructor
  · rintro ⟨m, hm, ch', money', hmarker, htransfer⟩
    rw [List.getElem?_append_left hm] at hmarker
    rw [List.getElem?_concat_length] at htransfer
    obtain ⟨rfl, -⟩ := Prod.mk.inj (Option.some.inj htransfer)
    exact ⟨m, hmarker⟩
  · rintro ⟨m, hmarker⟩
    have hm := (List.getElem?_eq_some_iff.mp hmarker).1
    refine ⟨m, hm, ch, money, ?_, ?_⟩
    · rw [List.getElem?_append_left hm, hmarker]
    · exact List.getElem?_concat_length

/-- The snapshot that a history tells of. -/
theorem Recorded.matches (hw : w.Recorded) {t : Taken} (ht : w.taken = some t) :
    ∃ s, w.branch.snapshot = some s ∧ s.Matches w.received t := by
  rcases hw.held with ⟨-, hnone⟩ | ⟨s, t', hb, ht', hmatch⟩
  · cases ht.symm.trans hnone
  · obtain rfl : t = t' := Option.some.inj (ht.symm.trans ht')
    exact ⟨s, hb, hmatch⟩

/-- One more message does not make an earlier Transfer late. -/
theorem Recorded.nothingLate_receive (hw : w.Recorded) (entry : Channel × BranchMessage)
    (htaken : w'.taken = w.taken) (hreceived : w'.received = w.received ++ [entry]) :
    w'.NothingLate ↔ w.NothingLate := by
  unfold NothingLate
  rw [htaken, hreceived]
  refine forall_congr' fun t => forall_congr' fun ht => ?_
  obtain ⟨s, -, hmatch⟩ := hw.matches ht
  refine and_congr ?_ ?_
  · exact forall₂_congr fun n hn => not_congr (late_concat (hmatch.inBalance_lt n hn) entry t.id)
  · exact forall_congr' fun p => forall₂_congr fun n hn =>
      not_congr (late_concat (hmatch.inTransit_lt p n hn) entry t.id)

/-- **A Transfer** stays out of the snapshot exactly when it is in time. -/
theorem Recorded.nothingLate_transfer (hw : w.Recorded) (hlate : w.NothingLate) (ch : Channel)
    (money : UInt64) (b : Branch) :
    (w.handled ch (.transfer money) b).NothingLate ↔ w.InTime (.message ch (.transfer money)) := by
  let w₁ : Watched := { w with received := w.received ++ [(ch, .transfer money)] }
  have hold : w₁.NothingLate := by
    apply (hw.nothingLate_receive (ch, .transfer money) ?_ ?_).mpr hlate
    · rfl
    · rfl
  constructor
  · intro hnew t ht hmarker hpeer
    by_contra hmarked
    -- the Transfer that arrives now is counted for its sender
    have hcounted : w.received.length ∈ (t.count (w.branch.handlerName ch)
        w.received.length).inTransit (w.branch.handlerName ch) :=
      Taken.mem_inTransit_count.mpr (Or.inr ⟨rfl, rfl, hpeer, hmarked⟩)
    have hnot := (hnew _ (Option.mem_map_of_mem _ ht)).2 _ _ hcounted
    rw [Taken.count_id] at hnot
    exact hnot ((late_transfer w.received ch money t.id).mpr hmarker)
  · intro htime t' ht'
    obtain ⟨t, ht, rfl⟩ := Option.map_eq_some_iff.mp ht'
    obtain ⟨hbalance, htransit⟩ := hold t ht
    rw [Taken.count_id, Taken.count_inBalance]
    refine ⟨hbalance, fun p n hn => ?_⟩
    rcases Taken.mem_inTransit_count.mp hn with hmem | ⟨-, rfl, hpeer, hmarked⟩
    · exact htransit p n hmem
    · intro hlateNow
      exact hmarked (htime t ht ((late_transfer w.received ch money t.id).mp hlateNow) hpeer)

/-- **A task** keeps late Transfers out of the snapshot exactly when it creates none for which
one has been credited. -/
theorem nothingLate_ran (hlate : w.NothingLate) (t : Task) (b : Branch) :
    (w.ran t b).NothingLate ↔ ∀ id ∈ w.creates t, ∀ n ∈ w.credited, ¬ Late w.received id n := by
  have hfresh : ∀ id, ({ w with branch := b, taken := some (w.fresh id) } : Watched).NothingLate ↔
      ∀ n ∈ w.credited, ¬ Late w.received id n := by
    intro id
    constructor
    · exact fun h => (h (w.fresh id) rfl).1
    · rintro h t ht
      cases ht
      exact ⟨h, fun p => List.forall_mem_nil _⟩
  cases t with
  | initSnapshot id =>
    simp only [creates, Option.mem_some_iff, forall_eq']
    exact hfresh id
  | marker id ci =>
    by_cases hid : w.taken.map Taken.id = some id
    · obtain ⟨t, ht, rfl⟩ := Option.map_eq_some_iff.mp hid
      refine ⟨fun _ i hi => ?_, fun _ => ?_⟩
      · simp only [creates, hid, if_true] at hi
        cases hi
      · intro t' ht'
        simp only [ran, ht, Option.filter_some, decide_true, if_true, Option.getD_some] at ht'
        cases ht'
        exact hlate t ht
    · -- the marker is not of the running snapshot, so it starts one
      have hfilter : w.taken.filter (fun t => t.id = id) = none := by
        cases ht : w.taken with
        | none => rfl
        | some t =>
          rw [ht, Option.map_some, Option.some.injEq] at hid
          simp [Option.filter_some, hid]
      have hran : (w.ran (.marker id ci) b).NothingLate ↔
          ({ w with branch := b, taken := some (w.fresh id) } : Watched).NothingLate := by
        unfold NothingLate ran
        simp only [hfilter, Option.getD_none, Option.mem_some_iff, forall_eq', Taken.mark]
      rw [hran, hfresh]
      simp [creates, hid]
  | retrieveSnapshot id ci => exact ⟨fun _ id hid => (by cases hid), fun _ => hlate⟩
  | hello name ci => exact ⟨fun _ id hid => (by cases hid), fun _ => hlate⟩
  | connected name ch => exact ⟨fun _ id hid => (by cases hid), fun _ => hlate⟩

@[simp] theorem received_handled (ch : Channel) (msg : BranchMessage) (b : Branch) :
    (w.handled ch msg b).received = w.received ++ [(ch, msg)] := by
  cases msg <;> rfl

/-- Only Transfers are recorded when they are handled. -/
theorem taken_handled {ch : Channel} {msg : BranchMessage} (hne : ∀ money, msg ≠ .transfer money)
    (b : Branch) : (w.handled ch msg b).taken = w.taken := by
  cases msg with
  | transfer money => exact absurd rfl (hne money)
  | _ => rfl

/-- **One event.** -/
theorem Recorded.inTime_iff (hw : w.Recorded) (hlate : w.NothingLate) (ev : BranchEvent) :
    w.InTime ev ↔ ∀ w', w.step ev = some w' → w'.NothingLate := by
  have hother : ∀ ch msg, (∀ money, msg ≠ .transfer money) →
      (w.InTime (.message ch msg) ↔ ∀ w', w.step (.message ch msg) = some w' → w'.NothingLate) := by
    intro ch msg hne
    constructor
    · intro _ w' h
      obtain ⟨r, -, rfl⟩ := Option.map_eq_some_iff.mp h
      exact (hw.nothingLate_receive (ch, msg) (taken_handled hne r.1) (received_handled _ _ _)).mpr
        hlate
    · intro _
      cases msg with
      | transfer money => exact absurd rfl (hne money)
      | _ => trivial
  cases ev with
  | message ch msg =>
    cases msg with
    | transfer money =>
      have htransfer := hw.nothingLate_transfer hlate ch money
        (w.branch.transferHandler money ⟨w.branch.handlerName ch, ch⟩)
      constructor
      · intro htime w' h
        cases h
        exact htransfer.mpr htime
      · exact fun h => htransfer.mp (h _ rfl)
    | _ => exact hother ch _ fun money h => (by cases h)
  | accept ch =>
    refine ⟨fun _ w' h => ?_, fun _ => trivial⟩
    cases h
    exact hlate
  | connected peer ch =>
    refine ⟨fun _ w' h => ?_, fun _ => trivial⟩
    cases h
    exact hlate
  | sendMoney i attempts =>
    refine ⟨fun _ w' h => ?_, fun _ => trivial⟩
    simp only [Watched.step] at h
    split at h
    · obtain ⟨r, -, rfl⟩ := Option.map_eq_some_iff.mp h
      exact hlate
    · cases h
  | task =>
    simp only [InTime, Watched.step]
    cases hstrand : w.branch.strand with
    | nil => simp
    | cons t rest =>
      simp only [List.head?_cons, Option.mem_some_iff, forall_eq']
      constructor
      · intro htime w' h
        obtain ⟨r, -, rfl⟩ := Option.map_eq_some_iff.mp h
        exact (nothingLate_ran hlate t r.1).mpr htime
      · intro h
        cases hr : ({ w.branch with strand := rest } : Branch).perform t with
        | ok r =>
          rw [hr] at h
          exact (nothingLate_ran hlate t r.1).mp (h _ rfl)
        | error f =>
          -- only a task that creates no snapshot throws
          cases t with
          | retrieveSnapshot id ci => exact fun _ hid => (by cases hid)
          | _ => cases hr

theorem nothingLate_start (name : Name) : (start name).NothingLate := by
  intro t ht
  cases ht

/-- **Nothing that follows a Marker is counted.** In a run of a branch, with any messages on its
channels and its tasks at any time, no state has a snapshot that counts a Transfer received
behind its Marker, exactly when every Transfer and every new snapshot is in time. -/
theorem late_uncounted_iff (name : Name) (evs : List BranchEvent) :
    Along step InTime (start name) evs ↔
      ∀ before, before <+: evs → ∀ w, exec step (start name) before = some w → w.NothingLate :=
  along_iff_reached (I := Recorded) (fun _ _ _ hw hstep => hw.step hstep)
    (fun _ ev hw hlate => hw.inTime_iff hlate ev) (recorded_start name) (nothingLate_start name)

/-- The InitBranch of a branch with two peers. -/
def threeBranches : InitBranch where
  balance := 10
  allBranches := [⟨"a", "", 1⟩, ⟨"b", "", 2⟩, ⟨"c", "", 3⟩]

/-- The controller initialises the branch, which then introduces itself to `"b"`. -/
def opening : List BranchEvent :=
  [.message ⟨.controller "a", .acceptor⟩ (.initBranch threeBranches),
    .connected "b" ⟨.peer "a" "b", .opener⟩, .task]

/-- The branch starts the first snapshot. -/
def beginning : List BranchEvent :=
  opening ++ [.message ⟨.controller "a", .acceptor⟩ (.initSnapshot 1), .task]

/-- `"b"` sends its Marker and then a Transfer; the task of the Marker runs after both. -/
def overtaken : List BranchEvent :=
  [.message ⟨.peer "a" "b", .opener⟩ (.marker 1),
    .message ⟨.peer "a" "b", .opener⟩ (.transfer 5), .task]

/-- **A Transfer behind a Marker is counted**: in the balance when the Marker's task creates the
snapshot, and for the sender when the snapshot exists. -/
theorem late_transfer_counted :
    (∃ w, exec step (start "a") (opening ++ overtaken) = some w ∧
      w.branch.snapshot.map Snapshot.balance = some 15 ∧ ¬ w.NothingLate) ∧
    ∃ w, exec step (start "a") (beginning ++ overtaken) = some w ∧
      (w.branch.snapshot.bind fun s => s.states.lookup "b") = some (.completed 5) ∧
      ¬ w.NothingLate := by
  -- In both runs the Transfer arrives behind the Marker of its channel, whose task is still queued.
  have hmarker : ∀ {received : List (Channel × BranchMessage)} {m n : ℕ}, m < n ∧
      received[m]? = some (⟨.peer "a" "b", .opener⟩, .marker 1) ∧
      received[n]? = some (⟨.peer "a" "b", .opener⟩, .transfer 5) → Late received 1 n :=
    fun ⟨hlt, hm, hn⟩ => ⟨_, hlt, _, _, hm, hn⟩
  constructor
  · -- First run: the snapshot has not begun, so the late amount is in the balance.
    have hend : (exec step (start "a") (opening ++ overtaken)).any (fun w =>
        w.branch.snapshot.map Snapshot.balance = some 15 ∧
        (w.taken.any fun t => t.id = 1 ∧ 2 ∈ t.inBalance) ∧ 1 < 2 ∧
        w.received[1]? = some (⟨.peer "a" "b", .opener⟩, .marker 1) ∧
        w.received[2]? = some (⟨.peer "a" "b", .opener⟩, .transfer 5)) = true := by
      decide +kernel
    obtain ⟨w, hrun, hw⟩ := (Option.any_eq_true _ _).mp hend
    obtain ⟨hbalance, htaken, hlate⟩ := of_decide_eq_true hw
    obtain ⟨t, ht, hcounted⟩ := (Option.any_eq_true _ _).mp htaken
    obtain ⟨hid, hmem⟩ := of_decide_eq_true hcounted
    refine ⟨w, hrun, hbalance, fun hnothing => (hnothing t ht).1 2 hmem ?_⟩
    rw [hid]
    exact hmarker hlate
  · -- Second run: the snapshot has begun, so the late amount is in the channel.
    have hend : (exec step (start "a") (beginning ++ overtaken)).any (fun w =>
        (w.branch.snapshot.bind fun s => s.states.lookup "b") = some (.completed 5) ∧
        (w.taken.any fun t => t.id = 1 ∧ 3 ∈ t.inTransit "b") ∧ 2 < 3 ∧
        w.received[2]? = some (⟨.peer "a" "b", .opener⟩, .marker 1) ∧
        w.received[3]? = some (⟨.peer "a" "b", .opener⟩, .transfer 5)) = true := by
      decide +kernel
    obtain ⟨w, hrun, hw⟩ := (Option.any_eq_true _ _).mp hend
    obtain ⟨hstate, htaken, hlate⟩ := of_decide_eq_true hw
    obtain ⟨t, ht, hcounted⟩ := (Option.any_eq_true _ _).mp htaken
    obtain ⟨hid, hmem⟩ := of_decide_eq_true hcounted
    refine ⟨w, hrun, hstate, fun hnothing => (hnothing t ht).2 "b" 3 hmem ?_⟩
    rw [hid]
    exact hmarker hlate

/-! ## RetrieveSnapshot -/

/-- A local snapshot says what the history says of a snapshot whose Markers are all in. -/
structure Complete (w : Watched) (t : Taken) (l : LocalSnapshot) : Prop where
  id : l.snapshotId = t.id
  balance : l.balance = t.others + sumOf w.received t.inBalance
  marked : ∀ p ∈ t.peers, p ∈ t.marked
  rows : ∀ row, row ∈ l.channelState ↔
    row.name ∈ t.peers ∧ row.inTransit = sumOf w.received (t.inTransit row.name)

/-- RetrieveSnapshot ends in a reply with the complete snapshot of that id, or in a report, and
leaves the branch as it is. -/
def Answered (w : Watched) (id : UInt64) (ci : ChannelInfo) : Prop :=
  (∃ t ∈ w.taken, ∃ msg, t.id = id ∧ w.Complete t msg.localSnapshot ∧ msg.name = w.branch.name ∧
    w.branch.perform (.retrieveSnapshot id ci)
      = .ok (w.branch, [.send ci.second (.returnSnapshot msg)])) ∨
  ∃ text, w.branch.perform (.retrieveSnapshot id ci) = .ok (w.branch, [.report text])

/-- The branch has created a snapshot and, if it is the one of the request, has handled the
Marker of each of its peers since. -/
def Retrievable (w : Watched) (id : UInt64) : Prop :=
  ∃ t ∈ w.taken, t.id = id → ∀ p ∈ t.peers, p ∈ t.marked

/-- What a complete snapshot is returned as. -/
theorem complete_of_toMessage {s : Snapshot} {t : Taken} (h : s.Matches w.received t)
    {msg : ReturnSnapshot} (hmsg : s.toMessage = .ok msg) : w.Complete t msg.localSnapshot := by
  obtain ⟨hid, hbalance, hentries⟩ := Snapshot.toMessage_ok hmsg
  have hall := h.toMessage_ok_iff.mp ⟨msg, hmsg⟩
  refine ⟨hid.trans h.id, hbalance.trans h.balance, hall, fun row => ?_⟩
  have hrow : row ∈ msg.localSnapshot.channelState ↔
      (⟨row.name, .completed row.inTransit⟩ : Sigma fun _ : Name => VarState)
        ∈ s.states.entries := by
    rw [hentries, List.mem_map]
    constructor
    · exact fun hmem => ⟨row, hmem, rfl⟩
    · rintro ⟨other, hmem, heq⟩
      obtain ⟨hname, hstate⟩ := Sigma.mk.inj heq
      obtain rfl : other = row := by
        cases other
        cases row
        simp_all
      exact hmem
  rw [hrow, ← AList.mem_lookup_iff, Option.mem_def, h.lookup_completed]
  constructor
  · exact fun ⟨hpeer, _, hsum⟩ => ⟨hpeer, hsum⟩
  · exact fun ⟨hpeer, hsum⟩ => ⟨hpeer, hall _ hpeer, hsum⟩

/-- **When RetrieveSnapshot is answered.** In every state that a branch reaches, whatever it has
received, a request ends in a reply or in a report exactly when a snapshot has been created
and, if it is the one asked for, the Marker of each peer has been handled. -/
theorem retrieve_answered_iff {name : Name} {evs : List BranchEvent}
    (hrun : exec step (start name) evs = some w) (id : UInt64) (ci : ChannelInfo) :
    w.Answered id ci ↔ w.Retrievable id := by
  have hperform : w.branch.perform (.retrieveSnapshot id ci)
    = w.branch.retrieveSnapshotTask id ci :=
    rfl
  unfold Answered Retrievable
  rw [hperform, Branch.retrieveSnapshotTask]
  rcases (recorded_exec hrun).held with ⟨hb, ht⟩ | ⟨s, t, hb, ht, hmatch⟩
  · rw [hb, ht]
    constructor
    · rintro (⟨t, htaken, -⟩ | ⟨text, htext⟩)
      · cases htaken
      · cases htext
    · rintro ⟨t, htaken, -⟩
      cases htaken
  · rw [hb, ht]
    simp only [Option.mem_some_iff, exists_eq_left']
    rw [hmatch.id]
    by_cases hid : id = t.id
    · -- the snapshot asked for is the running one: it is reported once every channel is closed
      subst hid
      rw [if_pos rfl]
      constructor
      · rintro (⟨msg, -, hcomplete, -⟩ | ⟨text, htext⟩) -
        · exact hcomplete.marked
        · cases hmsg : s.toMessage with
          | error f =>
            rw [hmsg] at htext
            cases htext
          | ok msg => exact hmatch.toMessage_ok_iff.mp ⟨msg, hmsg⟩
      · intro hall
        obtain ⟨msg, hmsg⟩ := hmatch.toMessage_ok_iff.mpr (hall rfl)
        have hcomplete := complete_of_toMessage hmatch hmsg
        refine Or.inl ⟨{ msg with name := w.branch.name }, rfl, hcomplete, rfl, ?_⟩
        rw [hmsg]
        rfl
    · rw [if_neg hid]
      constructor
      · exact fun _ heq => absurd heq.symm hid
      · exact fun _ => Or.inr ⟨_, rfl⟩

/-- The Marker of `"b"` arrives, and the one of `"c"` on the channel that `"c"` has opened. -/
def bothMarkers : List BranchEvent :=
  [.message ⟨.peer "a" "b", .opener⟩ (.marker 1), .task, .accept ⟨.peer "c" "a", .acceptor⟩,
    .message ⟨.peer "c" "a", .acceptor⟩ (.hello "c"), .task,
    .message ⟨.peer "c" "a", .acceptor⟩ (.marker 1), .task]

/-- The snapshot is returned when both Markers are in. -/
theorem retrieve_answered_iff_three : ∃ w,
    exec step (start "a") (beginning ++ bothMarkers) = some w ∧ ∀ ci, w.Answered 1 ci := by
  have hend : (exec step (start "a") (beginning ++ bothMarkers)).any (fun w =>
      w.taken.any fun t => ∀ p ∈ t.peers, p ∈ t.marked) = true := by decide +kernel
  obtain ⟨w, hrun, hw⟩ := (Option.any_eq_true _ _).mp hend
  obtain ⟨t, ht, hall⟩ := (Option.any_eq_true _ _).mp hw
  refine ⟨w, hrun, fun ci => ?_⟩
  exact (retrieve_answered_iff hrun 1 ci).mpr ⟨t, ht, fun _ => of_decide_eq_true hall⟩

/-- The request of the controller, when its task runs. -/
def request : Task := .retrieveSnapshot 1 ⟨"", ⟨.controller "a", .acceptor⟩⟩

/-- Nothing is answered by a task that throws. -/
theorem not_answered {f : Fault} (h : w.branch.perform request = .error f) :
    ¬ w.Answered 1 ⟨"", ⟨.controller "a", .acceptor⟩⟩ := by
  rintro (⟨t, -, msg, -, -, -, hok⟩ | ⟨text, hok⟩)
  · cases h.symm.trans hok
  · cases h.symm.trans hok

/-- **The two requests that end the process**: one before any snapshot, and one for a snapshot
that is still being recorded. -/
theorem retrieve_too_early : ∃ w, exec step (start "a") beginning = some w ∧
    (start "a").branch.perform request = .error .nullDereference ∧
    w.branch.perform request = .error .badVariantAccess ∧
    ¬ (start "a").Answered 1 ⟨"", ⟨.controller "a", .acceptor⟩⟩ ∧
    ¬ w.Answered 1 ⟨"", ⟨.controller "a", .acceptor⟩⟩ := by
  have hend : (exec step (start "a") beginning).any (fun w =>
      match w.branch.perform request with
      | .error f => f = .badVariantAccess
      | .ok _ => false) = true := by decide +kernel
  obtain ⟨w, hrun, hw⟩ := (Option.any_eq_true _ _).mp hend
  have hnull : (start "a").branch.perform request = .error .nullDereference := rfl
  have hvariant : w.branch.perform request = .error .badVariantAccess := by
    cases hperform : w.branch.perform request with
    | ok r =>
      rw [hperform] at hw
      cases hw
    | error f =>
      rw [hperform] at hw
      exact congrArg _ (of_decide_eq_true hw)
  exact ⟨w, hrun, hnull, hvariant, not_answered hnull, not_answered hvariant⟩

end Watched

end Cs457.Bank
