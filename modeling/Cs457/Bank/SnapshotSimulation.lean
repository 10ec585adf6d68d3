import Cs457.Bank.Joined
import Cs457.Lib.GlobalSnapshot

/-!
# Bank — the branches run the marker algorithm

The branches run the algorithm of `GlobalSnapshot`, with two differences the code makes: a
Marker is acted on by a task posted to `d_strand`, not when it is read, and a branch keeps
the snapshot object of an earlier id until a new one replaces it. Both disappear under the
relation `Simulates`: a marker whose task is still waiting counts as the head of its link,
and a snapshot of another id counts as no snapshot.

* **`Settled`** — where a run starts: all pairs connected and introduced, no Marker and no
  InitSnapshot anywhere.
* **`SnapshotStep`** — the steps of a run while one snapshot is taken.
* **`Simulates`** — the relation between a cluster and a state of the abstract algorithm.
* **`Simulates.step`** — every step of the cluster is matched by abstract steps.
-/

namespace Cs457.Bank

open GlobalSnapshot

/-! ## The messages and tasks of a run -/

/-- Messages that neither move money nor take part in a snapshot. -/
def Harmless : BranchMessage → Prop
  | .retrieveSnapshot _ | .returnSnapshot _ | .notSet => True
  | _ => False

/-- No snapshot is under way: apart from harmless messages there are only Transfers, on the
links between branches. -/
structure Quiet (N : Finset Name) (c : Cluster) : Prop where
  tasks : ∀ p ∈ N, ∀ t ∈ (c.branch p).strand, ∃ id ci, t = .retrieveSnapshot id ci
  messages : ∀ p ∈ N, ∀ ch, ch.host = some p → ∀ msg ∈ c.queue ch,
    Harmless msg ∨ ∃ q a, Linked c q p ch ∧ msg = .transfer a

/-- **Where a run starts.** Every branch of `N` has processed InitBranch, every pair is
connected and has processed Hello, and no Marker and no InitSnapshot is in flight. -/
structure Settled (N : Finset Name) (c : Cluster) : Prop extends Joined N c, Quiet N c

/-- The tasks that may wait in the strand of `p` while the snapshot `s` is taken. -/
def TaskOk (s : UInt64) (c : Cluster) (p : Name) (t : Task) : Prop :=
  (∃ id ci, t = .retrieveSnapshot id ci) ∨ t = .initSnapshot s ∨
    ∃ q ch, Linked c q p ch ∧ t = .marker s ⟨q, ch⟩

/-- The messages that may be on their way to `p` on `ch` while the snapshot `s` is taken. -/
def MessageOk (s : UInt64) (c : Cluster) (p : Name) (ch : Channel) (msg : BranchMessage) : Prop :=
  Harmless msg ∨ (ch = ⟨.controller p, .acceptor⟩ ∧ msg = .initSnapshot s) ∨
    ∃ q, Linked c q p ch ∧ (msg = .marker s ∨ ∃ a, msg = .transfer a)

structure Traffic (N : Finset Name) (s : UInt64) (c : Cluster) : Prop where
  tasks : ∀ p ∈ N, ∀ t ∈ (c.branch p).strand, TaskOk s c p t
  messages : ∀ p ∈ N, ∀ ch, ch.host = some p → ∀ msg ∈ c.queue ch, MessageOk s c p ch msg

/-- New tasks and messages must be acceptable, old ones stay so. -/
theorem Traffic.mono {N : Finset Name} {s : UInt64} {c c' : Cluster} (h : Traffic N s c)
    (hchannels : ∀ p ∈ N, (c'.branch p).channels = (c.branch p).channels)
    (htasks : ∀ p ∈ N, ∀ t ∈ (c'.branch p).strand, t ∈ (c.branch p).strand ∨ TaskOk s c p t)
    (hmsgs : ∀ p ∈ N, ∀ ch, ch.host = some p → ∀ msg ∈ c'.queue ch,
      msg ∈ c.queue ch ∨ MessageOk s c p ch msg) : Traffic N s c' where
  tasks p hp t ht := by
    have hok : TaskOk s c p t := (htasks p hp t ht).elim (h.tasks p hp t) id
    rw [TaskOk] at hok ⊢
    simpa only [Linked, hchannels p hp] using hok
  messages p hp ch hch msg hmsg := by
    have hok : MessageOk s c p ch msg := (hmsgs p hp ch hch msg hmsg).elim
      (h.messages p hp ch hch msg) id
    rw [MessageOk] at hok ⊢
    simpa only [Linked, hchannels p hp] using hok

/-- The head of a queue is taken off. -/
theorem Traffic.take {N : Finset Name} {s : UInt64} {c : Cluster} (h : Traffic N s c) {ch : Channel}
    {msg : BranchMessage} {rest : List BranchMessage} (hqueue : c.queue ch = msg :: rest) :
    Traffic N s { c with queue := fun y => if y = ch then rest else c.queue y } := by
  refine h.mono (fun _ _ => rfl) (fun _ _ _ ht => Or.inl ht) (fun _ _ y _ m hm => Or.inl ?_)
  dsimp only at hm
  split at hm
  · next hy =>
    rw [hy, hqueue]
    exact List.mem_cons_of_mem msg hm
  · exact hm

/-- A branch changes and sends nothing: the tasks it gains must be acceptable. -/
theorem Traffic.update_branch {N : Finset Name} {s : UInt64} {c : Cluster} (h : Traffic N s c)
    {q : Name} {b : Branch} (hchannels : b.channels = (c.branch q).channels)
    (htasks : ∀ t ∈ b.strand, t ∈ (c.branch q).strand ∨ TaskOk s c q t) :
    Traffic N s (c.update q (b, [])) := by
  refine h.mono (fun p _ => Cluster.update_field Branch.channels c hchannels p)
    (fun p _ t ht => ?_) (fun p _ y _ m hm => Or.inl ?_)
  · by_cases hp : p = q
    · subst hp
      rw [Cluster.update_self] at ht
      exact htasks t ht
    · rw [Cluster.update_ne c _ hp] at ht
      exact Or.inl ht
  · rwa [Cluster.update_silent_queue] at hm

/-- An InitSnapshot comes from the controller only. -/
theorem Traffic.ne_initSnapshot {N : Finset Name} {s : UInt64} {c : Cluster} (h : Traffic N s c)
    {p : Name} {ch : Channel} {msg : BranchMessage} (hp : p ∈ N) (hhost : ch.host = some p)
    (hmsg : msg ∈ c.queue ch) (hch : ch ≠ ⟨.controller p, .acceptor⟩) : msg ≠ .initSnapshot s := by
  rintro rfl
  rcases h.messages p hp ch hhost _ hmsg with hm | ⟨hm, _⟩ | ⟨_, _, hm | ⟨_, hm⟩⟩
  · exact hm
  · exact hch hm
  · cases hm
  · cases hm

/-- The steps of a run: every step of a branch of `N`, where a message is handled only when
the task that the previous message of the same channel posted has run. The controller starts
no further snapshot. -/
def SnapshotStep (N : Finset Name) (c : Cluster) : Action → Prop
  | .controllerSend _ _ => False
  | .connect _ _ => True
  | .accept p _ => p ∈ N
  | .deliver ch => ∃ p ∈ N, ch.host = some p ∧ ∀ t ∈ (c.branch p).strand, t.channel ≠ some ch
  | .runTask p => p ∈ N
  | .sendMoney p _ _ => p ∈ N

instance (N : Finset Name) (c : Cluster) : DecidablePred (SnapshotStep N c) := fun a =>
  match a with
  | .controllerSend _ _ => inferInstanceAs (Decidable False)
  | .connect _ _ => inferInstanceAs (Decidable True)
  | .accept p _ => inferInstanceAs (Decidable (p ∈ N))
  | .deliver ch => inferInstanceAs (Decidable (∃ p ∈ N, ch.host = some p ∧
      ∀ t ∈ (c.branch p).strand, t.channel ≠ some ch))
  | .runTask p => inferInstanceAs (Decidable (p ∈ N))
  | .sendMoney p _ _ => inferInstanceAs (Decidable (p ∈ N))

/-- Answering RetrieveSnapshot sends at most a harmless message. -/
theorem retrieveSnapshotTask_ok {b : Branch} {id : UInt64} {ci : ChannelInfo}
    {r : Branch × List Effect} (h : b.retrieveSnapshotTask id ci = .ok r) :
    r.1 = b ∧ (∀ y, ∀ m ∈ Cluster.sentTo r.2 y, Harmless m) ∧ Cluster.opened r.2 = [] := by
  rcases Branch.retrieveSnapshotTask_eq h with ⟨msg, rfl⟩ | ⟨text, rfl⟩
  · refine ⟨rfl, fun y m hm => ?_, rfl⟩
    simp only [Cluster.sentTo, List.filterMap_cons, List.filterMap_nil] at hm
    split at hm
    · cases hm
    · next heq =>
      simp only [Option.ite_none_right_eq_some, Option.some.injEq] at heq
      rw [List.mem_singleton.mp hm, ← heq.2]
      exact True.intro
  · exact ⟨rfl, fun y m hm => (by cases hm), rfl⟩

/-! ## The simulation relation -/

/-- A message as the abstract algorithm sees it. -/
def packet : BranchMessage → Option Packet
  | .transfer money => some (.amount money.toNat)
  | .marker _ => some .marker
  | _ => none

/-- The marker a task of the channel `ch` stands for. -/
def waitingMarker (ch : Channel) : Task → Option Packet
  | .marker _ ci => if ci.second = ch then some .marker else none
  | _ => none

/-- A link: the markers whose tasks are still waiting, then the queue. -/
def linkOf (b : Branch) (queue : List BranchMessage) (ch : Channel) : List Packet :=
  b.strand.filterMap (waitingMarker ch) ++ queue.filterMap packet

/-- The balance recorded for the snapshot `s`. -/
def recordedBalance (s : UInt64) (b : Branch) : Option ℕ :=
  b.snapshot.bind fun sn => if sn.id = s then some sn.balance.toNat else none

/-- Counting a transfer does not change the balance on record. -/
theorem recordedBalance_transferHandler (s : UInt64) (b : Branch) (a : UInt64) (ci : ChannelInfo) :
    recordedBalance s (b.transferHandler a ci) = recordedBalance s b := by
  rw [recordedBalance, recordedBalance, Branch.transferHandler]
  cases b.snapshot with
  | none => rfl
  | some sn => simp only [Option.map_some, Option.bind_some, Snapshot.recordTx_id,
      Snapshot.recordTx_balance]

/-- Nor does completing a channel. -/
theorem recordedBalance_closeChannel (s : UInt64) (b : Branch) (p : Name) :
    recordedBalance s (b.closeChannel p) = recordedBalance s b := by
  rw [recordedBalance, recordedBalance, Branch.closeChannel]
  cases b.snapshot with
  | none => rfl
  | some sn => simp only [Option.map_some, Option.bind_some, Snapshot.marker_id,
      Snapshot.marker_balance]

/-- The InitSnapshot of `s` on its way to `p` or waiting in its strand. -/
def pendingInits (s : UInt64) (c : Cluster) (p : Name) : ℕ :=
  (c.queue ⟨.controller p, .acceptor⟩).count (.initSnapshot s)
    + (c.branch p).strand.count (.initSnapshot s)

/-- Taking a task off the strand of `q` takes off one InitSnapshot or none. -/
theorem pendingInits_pop {s : UInt64} {c : Cluster} {q : Name} {t : Task} {b : Branch}
    (hstrand : (c.branch q).strand = t :: b.strand) (p : Name) :
    pendingInits s (c.update q (b, [])) p
        + (if p = q ∧ t = .initSnapshot s then 1 else 0)
      = pendingInits s c p := by
  rw [pendingInits, pendingInits, Cluster.update_queue]
  simp only [Cluster.sentTo, List.filterMap_nil, List.append_nil]
  by_cases hp : p = q
  · subst hp
    rw [Cluster.update_self, hstrand, List.count_cons]
    by_cases ht : t = .initSnapshot s <;> simp [ht, Nat.add_assoc]
  · rw [Cluster.update_ne c _ hp, if_neg (fun h => hp h.1), Nat.add_zero]

/-- The peers of a snapshot of `s` at `q` record what the abstract state says. -/
def Records (N : Finset Name) (s : UInt64) (b : Branch) (q : Name) (x : State Name) : Prop :=
  ∀ sn, b.snapshot = some sn → sn.id = s → (∀ k, k ∈ sn.states ↔ k ∈ N ∧ k ≠ q) ∧
    ∀ p ∈ N, p ≠ q → ∃ t : UInt64, t.toNat = x.transit p q ∧
      sn.states.lookup p = some (if x.closed p q then .completed t else .recording t)

namespace Records

variable {N : Finset Name} {s : UInt64} {b b' : Branch} {p q : Name} {x x' : State Name}

/-- Only the snapshot object and the incoming links matter. -/
theorem congr (h : Records N s b q x) (hsnapshot : b'.snapshot = b.snapshot)
    (htransit : ∀ p, x'.transit p q = x.transit p q) (hclosed : ∀ p, x'.closed p q = x.closed p q) :
    Records N s b' q x' := by
  intro sn hsn hid
  rw [hsnapshot] at hsn
  obtain ⟨hkeys, hrows⟩ := h sn hsn hid
  refine ⟨hkeys, fun p hp hpq => ?_⟩
  rw [htransit, hclosed]
  exact hrows p hp hpq

/-- `record_tx` counts a transfer unless its channel is closed or there is no snapshot. -/
theorem transferHandler (h : Records N s b q x) (hrecorded : x.recorded q = recordedBalance s b)
    (a : UInt64) (ch : Channel) (l : List Packet) :
    Records N s (b.transferHandler a ⟨p, ch⟩) q (x.receive (2 ^ 64) p q a.toNat l) := by
  intro sn' hsn' hid
  simp only [Branch.transferHandler, Option.map_eq_some_iff] at hsn'
  obtain ⟨sn, hsn, rfl⟩ := hsn'
  rw [Snapshot.recordTx_id] at hid
  obtain ⟨hkeys, hrows⟩ := h sn hsn hid
  -- The snapshot is held, so the abstract state has recorded `q` too.
  have hrec : (x.recorded q).isSome := by
    rw [hrecorded, recordedBalance, hsn]
    simp [hid]
  refine ⟨fun k => ?_, fun p' hp' hpq => ?_⟩
  · rw [← hkeys k, ← AList.lookup_isSome, ← AList.lookup_isSome, Snapshot.lookup_recordTx,
      Option.isSome_map]
  · obtain ⟨t, ht, hlook⟩ := hrows p' hp' hpq
    rw [Snapshot.lookup_recordTx, hlook]
    -- Only the row of the sender grows, and only while its channel is open.
    by_cases hpp : p' = p
    · subst hpp
      cases hc : x.closed p' q with
      | true => exact ⟨t, by simp [State.receive, hc, ht], by simp [State.receive, hc]⟩
      | false =>
        refine ⟨t + a, ?_, by simp [State.receive, hc]⟩
        simp [State.receive, hc, hrec, ht, UInt64.toNat_add]
    · refine ⟨t, by simp [State.receive, hpp, ht], ?_⟩
      cases hc : x.closed p' q <;> simp [State.receive, hc, hpp]

/-- A new snapshot counts from zero on the channels of all peers. -/
theorem startSnapshot (b : Branch) (q : Name) (x : State Name)
    (hpeers : ∀ k, k ∈ b.knownPeers.map PeerInfo.name ↔ k ∈ N ∧ k ≠ q) :
    Records N s (b.startSnapshot s).1 q (x.record N q) := by
  intro sn hsn _
  obtain rfl : Snapshot.create s b.money b.knownPeers = sn := Option.some.inj hsn
  refine ⟨fun k => ?_, fun p hp hne => ?_⟩
  · rw [← AList.lookup_isSome, Snapshot.lookup_create, ← hpeers k]
    split
    · next hk => exact iff_of_true rfl hk
    · next hk => exact iff_of_false Bool.false_ne_true hk
  · refine ⟨0, by simp [State.record], ?_⟩
    rw [Snapshot.lookup_create, if_pos ((hpeers p).mpr ⟨hp, hne⟩)]
    simp [State.record]

/-- A marker completes the count of its channel. -/
theorem closeChannel (h : Records N s b q x) (p : Name) (l : List Packet) :
    Records N s (b.closeChannel p) q (x.close p q l) := by
  intro sn' hsn' hid
  simp only [Branch.closeChannel, Option.map_eq_some_iff] at hsn'
  obtain ⟨sn, hsn, rfl⟩ := hsn'
  rw [Snapshot.marker_id] at hid
  obtain ⟨hkeys, hrows⟩ := h sn hsn hid
  refine ⟨fun k => ?_, fun p' hp' hpq => ?_⟩
  · rw [← hkeys k, ← AList.lookup_isSome, ← AList.lookup_isSome, Snapshot.lookup_marker,
      Option.isSome_map]
  · obtain ⟨t, ht, hlook⟩ := hrows p' hp' hpq
    refine ⟨t, ht, ?_⟩
    rw [Snapshot.lookup_marker, hlook]
    by_cases hpp : p' = p
    · subst hpp
      cases hc : x.closed p' q <;> simp [State.close]
    · cases hc : x.closed p' q <;> simp [State.close, hc, hpp]

end Records

structure Simulates (N : Finset Name) (s : UInt64) (c : Cluster) (x : State Name) : Prop where
  joined : Joined N c
  traffic : Traffic N s c
  balance : ∀ p ∈ N, x.balance p = (c.branch p).money.toNat
  link : ∀ q ∈ N, ∀ p ch, Linked c p q ch → x.link p q = linkOf (c.branch q) (c.queue ch) ch
  recorded : ∀ p ∈ N, x.recorded p = recordedBalance s (c.branch p)
  records : ∀ q ∈ N, Records N s (c.branch q) q x
  once : ∑ p ∈ N, pendingInits s c p ≤ 1
  idle : ∑ p ∈ N, pendingInits s c p = 1 → x.Idle N

namespace Simulates

variable {N : Finset Name} {s : UInt64} {c c' : Cluster} {x : State Name}

/-- A step the abstract algorithm does not see. -/
theorem stutter (h : Simulates N s c x) (hjoined : Joined N c') (htraffic : Traffic N s c')
    (hchannels : ∀ p ∈ N, (c'.branch p).channels = (c.branch p).channels)
    (hmoney : ∀ p ∈ N, (c'.branch p).money = (c.branch p).money)
    (hsnapshot : ∀ p ∈ N, (c'.branch p).snapshot = (c.branch p).snapshot)
    (hlink : ∀ q ∈ N, ∀ p ch, Linked c p q ch →
      linkOf (c'.branch q) (c'.queue ch) ch = linkOf (c.branch q) (c.queue ch) ch)
    (hinits : ∀ p ∈ N, pendingInits s c' p ≤ pendingInits s c p) : Simulates N s c' x := by
  have hsum := Finset.sum_le_sum hinits
  have honce := h.once
  refine ⟨hjoined, htraffic, fun p hp => ?_, fun q hq p ch hl => ?_, fun p hp => ?_,
    fun q hq => ?_, by omega, fun hone => h.idle (by omega)⟩
  · rw [hmoney p hp, h.balance p hp]
  · rw [Linked, hchannels q hq] at hl
    rw [hlink q hq p ch hl, h.link q hq p ch hl]
  · rw [h.recorded p hp, recordedBalance, recordedBalance, hsnapshot p hp]
  · exact (h.records q hq).congr (hsnapshot q hq) (fun _ => rfl) fun _ => rfl

/-! ### Handling a message -/

section

variable {q : Name} {ch : Channel} {msg : BranchMessage} {rest : List BranchMessage} {b : Branch}
  {posted : List Task}

/-- If the link of the message stays as it is, so do the others: the posted tasks stand for no
marker of theirs. -/
theorem linkOf_handle (hjoined : Joined N c) (hhost : ch.host = some q)
    (hb : b = { c.branch q with strand := (c.branch q).strand ++ posted })
    (hlink : ∀ p, Linked c p q ch → linkOf b rest ch = linkOf (c.branch q) (c.queue ch) ch)
    (hother : ∀ t ∈ posted, ∀ ch', ch' ≠ ch → waitingMarker ch' t = none) {p r : Name}
    {ch' : Channel} (hr : r ∈ N) (hl : Linked c p r ch') :
    linkOf (if r = q then b else c.branch r) (if ch' = ch then rest else c.queue ch') ch'
      = linkOf (c.branch r) (c.queue ch') ch' := by
  by_cases hch : ch' = ch
  · subst hch
    -- the end `ch` is hosted at `q` only
    obtain rfl : r = q := Option.some.inj ((hjoined.linked_spec hr hl).1.symm.trans hhost)
    rw [if_pos rfl, if_pos rfl]
    exact hlink p hl
  · rw [if_neg hch]
    split
    · next hrq =>
      have hnone : posted.filterMap (waitingMarker ch') = [] := by
        rw [List.filterMap_eq_nil_iff]
        exact fun t ht => hother t ht ch' hch
      rw [hrq, hb]
      simp only [linkOf, List.filterMap_append, hnone, List.append_nil]
    · rfl

/-- An InitSnapshot in the queue becomes at most one in the strand. -/
theorem pendingInits_handle (h : Traffic N s c) (hq : q ∈ N) (hhost : ch.host = some q)
    (hqueue : c.queue ch = msg :: rest)
    (hb : b = { c.branch q with strand := (c.branch q).strand ++ posted })
    (hcount : posted.count (.initSnapshot s) + rest.count (.initSnapshot s)
      ≤ (msg :: rest).count (.initSnapshot s)) (p : Name) :
    pendingInits s
      (({ c with queue := fun y => if y = ch then rest else c.queue y } : Cluster).update q (b, []))
      p ≤ pendingInits s c p := by
  set c₁ : Cluster := { c with queue := fun y => if y = ch then rest else c.queue y }
  have hqueue' : ∀ y, (c₁.update q (b, [])).queue y = if y = ch then rest else c.queue y :=
    Cluster.update_silent_queue c₁ q b
  rw [pendingInits, pendingInits, hqueue']
  by_cases hpq : p = q
  · subst hpq
    rw [Cluster.update_self, hb, List.count_append]
    -- The message came from the controller, or it is no InitSnapshot at all.
    by_cases hch : (⟨.controller p, .acceptor⟩ : Channel) = ch
    · rw [if_pos hch, hch, hqueue]
      omega
    · have hmsg : msg ≠ .initSnapshot s :=
        h.ne_initSnapshot hq hhost (hqueue ▸ List.mem_cons_self) (Ne.symm hch)
      rw [if_neg hch]
      rw [List.count_cons_of_ne hmsg] at hcount
      omega
  · have hne : (⟨.controller p, .acceptor⟩ : Channel) ≠ ch := by
      rintro rfl
      exact hpq (Option.some.inj hhost)
    rw [if_neg hne, Cluster.update_ne c₁ _ hpq]

/-- The head of a queue is taken off and the branch posts a task or does nothing. -/
theorem handle (h : Simulates N s c x) (hq : q ∈ N) (hhost : ch.host = some q)
    (hqueue : c.queue ch = msg :: rest)
    (hb : b = { c.branch q with strand := (c.branch q).strand ++ posted })
    (hok : ∀ t ∈ posted, TaskOk s c q t)
    (hlink : ∀ p, Linked c p q ch → linkOf b rest ch = linkOf (c.branch q) (c.queue ch) ch)
    (hother : ∀ t ∈ posted, ∀ ch', ch' ≠ ch → waitingMarker ch' t = none)
    (hcount : posted.count (.initSnapshot s) + rest.count (.initSnapshot s)
      ≤ (msg :: rest).count (.initSnapshot s)) :
    Simulates N s
      (({ c with queue := fun y => if y = ch then rest else c.queue y } : Cluster).update q (b, []))
      x := by
  set c₁ : Cluster := { c with queue := fun y => if y = ch then rest else c.queue y } with hc₁
  have hchannels : b.channels = (c₁.branch q).channels := by rw [hb]
  -- only the strand of the branch changes
  refine h.stutter ((h.joined.withQueue _).update hchannels (by rw [hb]) (by rw [hb]) rfl)
    ((h.traffic.take hqueue).update_branch hchannels fun t ht => ?_)
    (fun p _ => Cluster.update_field Branch.channels c₁ hchannels p)
    (fun p _ => Cluster.update_field Branch.money c₁ (by rw [hb]) p)
    (fun p _ => Cluster.update_field Branch.snapshot c₁ (by rw [hb]) p) (fun r hr p ch' hl => ?_)
    (fun p _ => pendingInits_handle h.traffic hq hhost hqueue hb hcount p)
  · rw [hb] at ht
    exact (List.mem_append.mp ht).imp_right (hok t)
  · have hbranch : (c₁.update q (b, [])).branch r = if r = q then b else c.branch r := by
      split
      · next hrq => rw [hrq, Cluster.update_self]
      · next hrq => exact Cluster.update_ne c₁ _ hrq
    rw [Cluster.update_silent_queue, hbranch]
    exact linkOf_handle h.joined hhost hb hlink hother hr hl

end

/-- The Transfer leaves the link from `p`; the other links are as before. -/
theorem receive_link (h : Simulates N s c x) {p q : Name} {ch : Channel} {rest : List BranchMessage}
    (hq : q ∈ N) (hl : Linked c p q ch)
    (hwait : (c.branch q).strand.filterMap (waitingMarker ch) = []) (a : ℕ) {p' r : Name}
    {ch' : Channel} (hr : r ∈ N) (hl' : Linked c p' r ch') :
    (x.receive (2 ^ 64) p q a (rest.filterMap packet)).link p' r
      = linkOf (c.branch r) (if ch' = ch then rest else c.queue ch') ch' := by
  by_cases hch : ch' = ch
  · subst hch
    obtain ⟨rfl, rfl⟩ := h.joined.linked_unique hr hq hl' hl
    simp [State.receive, linkOf, hwait]
  · have hne : ¬ (p' = p ∧ r = q) := by
      rintro ⟨rfl, rfl⟩
      -- a link has one end at each branch
      exact hch (Option.some.inj (hl'.symm.trans hl))
    simp only [State.receive, hne, if_false, if_neg hch]
    exact h.link r hr p' ch' hl'

/-- A Transfer is credited at once, and counted by a snapshot that is still recording. -/
theorem transfer (h : Simulates N s c x) {p q : Name} {ch : Channel} {a : UInt64}
    {rest : List BranchMessage} (hq : q ∈ N) (hl : Linked c p q ch)
    (hqueue : c.queue ch = .transfer a :: rest)
    (hwait : (c.branch q).strand.filterMap (waitingMarker ch) = []) :
    ∃ l, x.link p q = .amount a.toNat :: l ∧
      Simulates N s
        (({ c with queue := fun y => if y = ch then rest else c.queue y } : Cluster).update q
          ((c.branch q).transferHandler a ⟨p, ch⟩, []))
        (x.receive (2 ^ 64) p q a.toNat l) := by
  obtain ⟨hhost, _, _⟩ := h.joined.linked_spec hq hl
  -- No Marker of this channel waits in the strand, so the Transfer is the first packet of the link.
  have hhead : x.link p q = .amount a.toNat :: rest.filterMap packet := by
    rw [h.link q hq p ch hl, linkOf, hwait, hqueue, List.nil_append, List.filterMap_cons]
    rfl
  refine ⟨rest.filterMap packet, hhead, ?_⟩
  set c₁ : Cluster := { c with queue := fun y => if y = ch then rest else c.queue y } with hc₁
  set b := (c.branch q).transferHandler a ⟨p, ch⟩ with hb
  have hself : (c₁.update q (b, [])).branch q = b := Cluster.update_self c₁ q (b, [])
  have hbranch : ∀ r, r ≠ q → (c₁.update q (b, [])).branch r = c.branch r :=
    fun r hr => Cluster.update_ne c₁ (b, []) hr
  have hqueue' : ∀ y, (c₁.update q (b, [])).queue y = if y = ch then rest else c.queue y :=
    Cluster.update_silent_queue c₁ q b
  have hchannels : ∀ r, ((c₁.update q (b, [])).branch r).channels = (c.branch r).channels :=
    Cluster.update_field Branch.channels c₁ rfl
  have hstrand : ∀ r, ((c₁.update q (b, [])).branch r).strand = (c.branch r).strand :=
    Cluster.update_field Branch.strand c₁ rfl
  have hinits : ∀ r, pendingInits s (c₁.update q (b, [])) r = pendingInits s c r := by
    intro r
    rw [pendingInits, pendingInits, hqueue', hstrand]
    split
    · next hr =>
      rw [hr, hqueue, List.count_cons_of_ne (by simp)]
    · rfl
  -- The invariant field by field; only the balance, the link and the rows of `q` change.
  refine ⟨(h.joined.withQueue _).update rfl rfl rfl rfl,
    (h.traffic.take hqueue).update_branch rfl fun _ => Or.inl, fun r hr => ?_,
    fun r hr p' ch' hl' => ?_, fun r hr => ?_, fun r hr => ?_, ?_, ?_⟩
  · by_cases hrq : r = q
    · subst hrq
      rw [hself]
      simp only [State.receive, if_true, h.balance r hr, hb, Branch.transferHandler,
        UInt64.toNat_add]
    · rw [hbranch r hrq]
      simp only [State.receive, hrq, if_false, h.balance r hr]
  · rw [Linked, hchannels] at hl'
    rw [hqueue', linkOf, hstrand]
    exact h.receive_link hq hl hwait a.toNat hr hl'
  · rw [Cluster.update_field (recordedBalance s) c₁ (recordedBalance_transferHandler ..)]
    exact h.recorded r hr
  · by_cases hrq : r = q
    · subst hrq
      rw [hself]
      exact (h.records r hr).transferHandler (h.recorded r hr) a ch _
    · rw [hbranch r hrq]
      refine (h.records r hr).congr rfl (fun p' => ?_) fun _ => rfl
      simp only [State.receive, hrq, false_and, and_false, if_false]
  · simp only [hinits]
    exact h.once
  · simp only [hinits]
    exact fun hone => (h.idle hone).receive _ hhead

/-! ### Running a task -/

/-- Taking a task off the strand that is no marker leaves the abstract state alone. -/
theorem pop (h : Simulates N s c x) {q : Name} {t : Task} {rest : List Task} (hq : q ∈ N)
    (hstrand : (c.branch q).strand = t :: rest) (hmarker : ∀ ch, waitingMarker ch t = none) :
    Simulates N s (c.update q ({ c.branch q with strand := rest }, [])) x := by
  set b : Branch := { c.branch q with strand := rest } with hb
  have hself : (c.update q (b, [])).branch q = b := Cluster.update_self c q (b, [])
  have hbranch : ∀ p, p ≠ q → (c.update q (b, [])).branch p = c.branch p :=
    fun p hp => Cluster.update_ne c (b, []) hp
  have hqueue : ∀ y, (c.update q (b, [])).queue y = c.queue y := Cluster.update_silent_queue c q b
  have htraffic : Traffic N s (c.update q (b, [])) := by
    refine h.traffic.update_branch rfl fun u hu => Or.inl ?_
    rw [hstrand]
    exact List.mem_cons_of_mem t hu
  refine h.stutter (h.joined.update rfl rfl rfl rfl) htraffic
    (fun p _ => Cluster.update_field Branch.channels c (by rfl) p)
    (fun p _ => Cluster.update_field Branch.money c (by rfl) p)
    (fun p _ => Cluster.update_field Branch.snapshot c (by rfl) p) (fun r _ p ch _ => ?_)
    (fun p _ => ?_)
  · rw [hqueue]
    by_cases hr : r = q
    · subst hr
      rw [hself, linkOf, linkOf, hstrand, List.filterMap_cons, hmarker ch]
    · rw [hbranch r hr]
  · exact (@pendingInits_pop s c q t b hstrand p).symm ▸ Nat.le_add_right _ _

/-- Sending harmless messages only. -/
theorem reply (h : Simulates N s c x) (q : Name) {es : List Effect}
    (hharmless : ∀ y, ∀ m ∈ Cluster.sentTo es y, Harmless m) (hopened : Cluster.opened es = []) :
    Simulates N s (c.update q (c.branch q, es)) x := by
  have hbranch : ∀ p, (c.update q (c.branch q, es)).branch p = c.branch p :=
    Cluster.update_field id c rfl
  refine h.stutter (h.joined.update rfl rfl rfl hopened) ?_ (fun p _ => by rw [hbranch])
    (fun p _ => by rw [hbranch]) (fun p _ => by rw [hbranch]) (fun r _ p ch _ => ?_) (fun p _ => ?_)
  · refine h.traffic.mono (fun p _ => by rw [hbranch]) (fun p _ t ht => ?_) (fun p _ y _ m hm => ?_)
    · rw [hbranch] at ht
      exact Or.inl ht
    · rw [Cluster.update_queue, List.mem_append] at hm
      exact hm.imp_right fun hnew => Or.inl (hharmless y m hnew)
  · -- An answer to the controller is no packet, so the links stay.
    have hnone : (Cluster.sentTo es ch).filterMap packet = [] := by
      rw [List.filterMap_eq_nil_iff]
      intro m hm
      have hm' := hharmless ch m hm
      cases m <;> first | rfl | exact hm'.elim
    rw [hbranch, Cluster.update_queue, linkOf, linkOf, List.filterMap_append, hnone,
      List.append_nil]
  · -- Nor is it an InitSnapshot.
    have hzero : (Cluster.sentTo es ⟨.controller p, .acceptor⟩).count (.initSnapshot s) = 0 := by
      rw [List.count_eq_zero]
      exact fun hm => hharmless _ _ hm
    rw [pendingInits, pendingInits, hbranch, Cluster.update_queue, List.count_append, hzero,
      Nat.add_zero]

/-- The marker goes on every outgoing link of `q`. -/
theorem record_link (h : Simulates N s c x) {q : Name} (hq : q ∈ N) {p p' : Name} {ch : Channel}
    (hp : p ∈ N) (hl : Linked c p' p ch) :
    (x.record N q).link p' p = linkOf (c.branch p) (c.queue ch ++ Cluster.sentTo
      ((c.branch q).channels.entries.map fun e => .send e.2 (.marker s)) ch) ch := by
  have hmem := h.joined.mem_of_linked hp hl
  rw [h.joined.sentTo_broadcast hq hp hl, linkOf, List.filterMap_append, ← List.append_assoc]
  change _ = linkOf (c.branch p) (c.queue ch) ch ++ _
  rw [← h.link p hp p' ch hl]
  by_cases hpq : p' = q
  · subst hpq
    simp [State.record, hp, Ne.symm hmem.2, packet]
  · simp [State.record, hpq]

/-- `q` takes its snapshot and sends a marker on every channel. -/
theorem start (h : Simulates N s c x) {q : Name} (hq : q ∈ N) (hrec : x.recorded q = none)
    (hnone : ∑ p ∈ N, pendingInits s c p = 0) :
    Simulates N s (c.update q ((c.branch q).startSnapshot s)) (x.record N q) := by
  set r := (c.branch q).startSnapshot s with hr
  have hr2 : r.2 = (c.branch q).channels.entries.map fun e => .send e.2 (.marker s) := rfl
  have hbranch : ∀ p, p ≠ q → (c.update q r).branch p = c.branch p :=
    fun p hp => Cluster.update_ne c r hp
  have hself : (c.update q r).branch q = r.1 := Cluster.update_self c q r
  have hchannels : ∀ p, ((c.update q r).branch p).channels = (c.branch p).channels :=
    Cluster.update_field Branch.channels c rfl
  have hmoney : ∀ p, ((c.update q r).branch p).money = (c.branch p).money :=
    Cluster.update_field Branch.money c rfl
  have hstrand : ∀ p, ((c.update q r).branch p).strand = (c.branch p).strand :=
    Cluster.update_field Branch.strand c rfl
  have hsent : ∀ y, ∀ m ∈ Cluster.sentTo r.2 y, m = .marker s ∧
      ∃ e ∈ (c.branch q).channels.entries, e.2.remote = y := by
    intro y m hm
    rw [hr2, Cluster.sentTo, List.filterMap_map, List.mem_filterMap] at hm
    obtain ⟨e, he, hem⟩ := hm
    simp only [Function.comp_apply, Option.ite_none_right_eq_some, Option.some.injEq] at hem
    exact ⟨hem.2.symm, e, he, hem.1⟩
  have hopened : Cluster.opened r.2 = [] := by
    rw [hr2, Cluster.opened, List.filterMap_map, List.filterMap_eq_nil_iff]
    exact fun _ _ => rfl
  have hinits : ∀ p, pendingInits s (c.update q r) p = pendingInits s c p := by
    intro p
    rw [pendingInits, pendingInits, Cluster.update_queue, hstrand, List.count_append]
    have hzero : (Cluster.sentTo r.2 ⟨.controller p, .acceptor⟩).count (.initSnapshot s) = 0 := by
      rw [List.count_eq_zero]
      intro hm
      exact BranchMessage.noConfusion (hsent _ _ hm).1
    omega
  refine ⟨h.joined.update rfl rfl rfl hopened, ?_, fun p hp => ?_, fun p hp p' ch hl => ?_,
    fun p hp => ?_, fun p hp => ?_, ?_, ?_⟩
  · refine h.traffic.mono (fun p _ => hchannels p) (fun p _ t ht => ?_) (fun p hp y hy m hm => ?_)
    · rw [hstrand] at ht
      exact Or.inl ht
    · rw [Cluster.update_queue, List.mem_append] at hm
      refine hm.imp_right fun hm => ?_
      obtain ⟨rfl, e, he, rfl⟩ := hsent y m hm
      have hle : Linked c e.1 q e.2 := UnorderedMap.lookup_of_mem_entries he
      obtain ⟨_, _, hback⟩ := h.joined.linked_spec hq hle
      have hhost := (h.joined.linked_spec (h.joined.mem_of_linked hq hle).1 hback).1
      -- a marker is for the branch at the other end
      have hep : e.1 = p := Option.some.inj (hhost.symm.trans hy)
      rw [hep] at hback
      exact Or.inr (Or.inr ⟨q, hback, Or.inl rfl⟩)
  · rw [hmoney]
    exact h.balance p hp
  · rw [Linked, hchannels] at hl
    rw [Cluster.update_queue, hr2, linkOf, hstrand]
    exact h.record_link hq hp hl
  · by_cases hpq : p = q
    · subst hpq
      rw [hself]
      simp [State.record, recordedBalance, hr, Branch.startSnapshot, h.balance p hp]
    · rw [hbranch p hpq]
      simp only [State.record, hpq, if_false, h.recorded p hp]
  · by_cases hpq : p = q
    · subst hpq
      rw [hself]
      exact Records.startSnapshot (c.branch p) p x (h.joined.peers p hp)
    · rw [hbranch p hpq]
      refine (h.records p hp).congr rfl (fun _ => ?_) fun _ => ?_
      · simp only [State.record, hpq, if_false]
      · simp only [State.record, hpq, if_false]
  · simp only [hinits]
    exact h.once
  · simp only [hinits]
    intro hone
    omega

/-- A marker is waiting, so no InitSnapshot is. -/
theorem no_inits (h : Simulates N s c x) {p q : Name} {l : List Packet} (hp : p ∈ N)
    (hq : q ∈ N) (hpq : p ≠ q) (hl : x.link p q = .marker :: l) :
    ∑ p ∈ N, pendingInits s c p = 0 := by
  have honce := h.once
  by_contra hne
  have hm := (h.idle (by omega)).unmarked p hp q hq hpq
  rw [hl, markers] at hm
  omega

/-- The task of the marker is gone, so the link from `p` loses its head. The links of other
channels are as before. -/
theorem close_link (h : Simulates N s c x) {p q : Name} {ch : Channel} {b : Branch} (hq : q ∈ N)
    (hl : Linked c p q ch) (hstrand : (c.branch q).strand = .marker s ⟨p, ch⟩ :: b.strand)
    {p' r : Name} {ch' : Channel} (hr : r ∈ N) (hl' : Linked c p' r ch') :
    (x.close p q (linkOf b (c.queue ch) ch)).link p' r
      = linkOf ((c.update q (b, [])).branch r) (c.queue ch') ch' := by
  by_cases hrq : r = q
  · subst hrq
    rw [Cluster.update_self]
    by_cases hch : ch' = ch
    · subst hch
      obtain ⟨rfl, _⟩ := h.joined.linked_unique hr hq hl' hl
      simp only [State.close, and_self, if_true]
    · -- the task belongs to another channel
      have hne : p' ≠ p := by
        rintro rfl
        exact hch (Option.some.inj (hl'.symm.trans hl))
      have hskip : waitingMarker ch' (.marker s ⟨p, ch⟩) = none := by
        simp [waitingMarker, Ne.symm hch]
      simp only [State.close, hne, false_and, if_false]
      rw [h.link r hr p' ch' hl', linkOf, hstrand, List.filterMap_cons, hskip]
      rfl
  · have hne : ¬ (p' = p ∧ r = q) := fun he => hrq he.2
    rw [Cluster.update_ne c _ hrq]
    simp only [State.close, hne, if_false]
    exact h.link r hr p' ch' hl'

/-- The count of the channel from `p` is complete at `q`; nothing is recorded elsewhere. -/
theorem close_records (h : Simulates N s c x) {p q : Name} {rest : List Task} (l : List Packet)
    {r : Name} (hr : r ∈ N) :
    Records N s ((c.update q (({ c.branch q with strand := rest } : Branch).closeChannel p,
      [])).branch r) r (x.close p q l) := by
  by_cases hrq : r = q
  · subst hrq
    rw [Cluster.update_self]
    have hrecords : Records N s ({ c.branch r with strand := rest } : Branch) r x :=
      (h.records r hr).congr rfl (fun _ => rfl) fun _ => rfl
    exact hrecords.closeChannel p l
  · rw [Cluster.update_ne c _ hrq]
    refine (h.records r hr).congr rfl (fun _ => rfl) fun p' => ?_
    simp only [State.close, hrq, and_false, if_false]

/-- The marker of the link from `p` is acted on at `q`, which has taken its snapshot. -/
theorem close (h : Simulates N s c x) {p q : Name} {ch : Channel} {rest : List Task} (hq : q ∈ N)
    (hl : Linked c p q ch) (hstrand : (c.branch q).strand = .marker s ⟨p, ch⟩ :: rest)
    (hid : (c.branch q).snapshot.map Snapshot.id = some s) :
    ∃ l, x.link p q = .marker :: l ∧ (x.recorded q).isSome ∧
      Simulates N s
        (c.update q (({ c.branch q with strand := rest } : Branch).closeChannel p, []))
        (x.close p q l) := by
  obtain ⟨hp, hpq⟩ := h.joined.mem_of_linked hq hl
  set b := ({ c.branch q with strand := rest } : Branch).closeChannel p with hb
  -- the marker at the head of the link is the one whose task waits
  have hhead : x.link p q = .marker :: linkOf b (c.queue ch) ch := by
    rw [h.link q hq p ch hl, linkOf, hstrand, List.filterMap_cons]
    simp only [waitingMarker, if_true, List.cons_append]
    rfl
  have hzero := h.no_inits hp hq hpq hhead
  obtain ⟨sn, hsn, hsnid⟩ := Option.map_eq_some_iff.mp hid
  have hrec : (x.recorded q).isSome := by
    rw [h.recorded q hq, recordedBalance, hsn]
    simp [hsnid]
  -- a task is taken off, and it is no InitSnapshot
  have htraffic : Traffic N s (c.update q (b, [])) := by
    refine h.traffic.update_branch rfl fun u hu => Or.inl ?_
    rw [hstrand]
    exact List.mem_cons_of_mem _ hu
  have hinits : ∀ r, pendingInits s (c.update q (b, [])) r = pendingInits s c r := by
    intro r
    have hpop := @pendingInits_pop s c q _ b hstrand r
    rwa [if_neg (fun he => Task.noConfusion he.2), Nat.add_zero] at hpop
  refine ⟨_, hhead, hrec, h.joined.update rfl rfl rfl rfl, htraffic, fun r hr => ?_,
    fun r hr p' ch' hl' => ?_, fun r hr => ?_, fun r hr => h.close_records _ hr, ?_, ?_⟩
  · rw [Cluster.update_field Branch.money c (by rfl)]
    exact h.balance r hr
  · rw [Linked, Cluster.update_field Branch.channels c (by rfl)] at hl'
    rw [Cluster.update_silent_queue]
    exact h.close_link hq hl hstrand hr hl'
  · rw [Cluster.update_field (recordedBalance s) c (recordedBalance_closeChannel ..)]
    exact h.recorded r hr
  · simp only [hinits]
    exact h.once
  · simp only [hinits]
    intro hone
    omega

/-! ### Sending money -/

/-- A Transfer joins the link of the channel it is sent on, and no other. -/
theorem send_link (h : Simulates N s c x) {p q : Name} {ch : Channel} (hq : q ∈ N)
    (hback : Linked c p q ch.remote) (a : UInt64) {p' r : Name} {ch' : Channel} (hr : r ∈ N)
    (hl' : Linked c p' r ch') :
    (x.send p q a.toNat).link p' r = linkOf (c.branch r)
      (c.queue ch' ++ if ch.remote = ch' then [.transfer a] else []) ch' := by
  rw [linkOf, List.filterMap_append, ← List.append_assoc]
  change _ = linkOf (c.branch r) (c.queue ch') ch' ++ _
  rw [← h.link r hr p' ch' hl']
  by_cases hch : ch.remote = ch'
  · subst hch
    -- the queue the transfer joins is that of one link
    obtain ⟨rfl, rfl⟩ := h.joined.linked_unique hr hq hl' hback
    simp [State.send, packet]
  · have hne : ¬ (p' = p ∧ r = q) := by
      rintro ⟨rfl, rfl⟩
      exact hch (Option.some.inj (hback.symm.trans hl'))
    simp [State.send, hne, hch]

/-- Money leaves a balance and joins the link of one channel, which is counted as the money in
transit. -/
theorem send (h : Simulates N s c x) {p : Name} (hp : p ∈ N) {e : Sigma fun _ : Name => Channel}
    {a : UInt64} (he : e ∈ (c.branch p).channels.entries) (ha : a ≤ (c.branch p).money) :
    ∃ q ∈ N, p ≠ q ∧ a.toNat ≤ x.balance p ∧
      Simulates N s
        (c.update p ({ c.branch p with money := (c.branch p).money - a },
          [.send e.2 (.transfer a)]))
        (x.send p q a.toNat) := by
  have hle : Linked c e.1 p e.2 := UnorderedMap.lookup_of_mem_entries he
  obtain ⟨hq, hqp⟩ := h.joined.mem_of_linked hp hle
  obtain ⟨_, _, hback⟩ := h.joined.linked_spec hp hle
  have hnat : a.toNat ≤ (c.branch p).money.toNat := UInt64.le_iff_toNat_le.mp ha
  refine ⟨e.1, hq, Ne.symm hqp, by rw [h.balance p hp]; exact hnat, ?_⟩
  set b : Branch := { c.branch p with money := (c.branch p).money - a } with hb
  set es : List Effect := [.send e.2 (.transfer a)] with hes
  have hbranch : ∀ r, r ≠ p → (c.update p (b, es)).branch r = c.branch r :=
    fun r hr => Cluster.update_ne c (b, es) hr
  have hself : (c.update p (b, es)).branch p = b := Cluster.update_self c p (b, es)
  have hqueue : ∀ y, (c.update p (b, es)).queue y
      = c.queue y ++ if e.2.remote = y then [.transfer a] else [] := by
    intro y
    rw [Cluster.update_queue]
    by_cases hy : e.2.remote = y <;> simp [Cluster.sentTo, hes, hy]
  have hchannels : ∀ r, ((c.update p (b, es)).branch r).channels = (c.branch r).channels :=
    Cluster.update_field Branch.channels c rfl
  have hstrand : ∀ r, ((c.update p (b, es)).branch r).strand = (c.branch r).strand :=
    Cluster.update_field Branch.strand c rfl
  have hsnapshot : ∀ r, ((c.update p (b, es)).branch r).snapshot = (c.branch r).snapshot :=
    Cluster.update_field Branch.snapshot c rfl
  have hinits : ∀ r, pendingInits s (c.update p (b, es)) r = pendingInits s c r := by
    intro r
    rw [pendingInits, pendingInits, hqueue, hstrand, List.count_append]
    split
    · rw [List.count_cons_of_ne (by simp), List.count_nil, Nat.add_zero]
    · rw [List.count_nil, Nat.add_zero]
  refine ⟨h.joined.update rfl rfl rfl rfl, ?_, fun r hr => ?_, fun r hr p' ch' hl' => ?_,
    fun r hr => ?_, fun r hr => ?_, ?_, ?_⟩
  · refine h.traffic.mono (fun r _ => hchannels r) (fun r _ t ht => ?_) (fun r _ y hy m hm => ?_)
    · rw [hstrand] at ht
      exact Or.inl ht
    · rw [hqueue, List.mem_append] at hm
      refine hm.imp_right fun hnew => ?_
      split at hnew
      · next heq =>
        subst heq
        have hhost := (h.joined.linked_spec hq hback).1
        -- the transfer is for the branch at the other end
        have her : e.1 = r := Option.some.inj (hhost.symm.trans hy)
        rw [her] at hback
        exact Or.inr (Or.inr ⟨p, hback, Or.inr ⟨a, List.mem_singleton.mp hnew⟩⟩)
      · cases hnew
  · by_cases hrp : r = p
    · subst hrp
      rw [hself]
      simp only [State.send, if_true, h.balance r hr, hb]
      exact (UInt64.toNat_sub_of_le _ _ ha).symm
    · rw [hbranch r hrp]
      simp only [State.send, hrp, if_false, h.balance r hr]
  · rw [Linked, hchannels] at hl'
    rw [hqueue, linkOf, hstrand]
    exact h.send_link hq hback a hr hl'
  · rw [recordedBalance, hsnapshot]
    exact h.recorded r hr
  · exact (h.records r hr).congr (hsnapshot r) (fun _ => rfl) fun _ => rfl
  · simp only [hinits]
    exact h.once
  · simp only [hinits]
    exact fun hone => (h.idle hone).send p e.1 a.toNat

/-! ### Accepting a connection -/

/-- Accepting a connection posts nothing and moves nothing. -/
theorem accept (h : Simulates N s c x) {p : Name} {k : Connection} (hk : k ∈ c.unaccepted) :
    Simulates N s
      { c.setBranch p ((c.branch p).doAccept ⟨k, .acceptor⟩) with
        unaccepted := c.unaccepted.erase k } x := by
  have hchannels : ∀ r, ((c.setBranch p ((c.branch p).doAccept ⟨k, .acceptor⟩)).branch r).channels
      = (c.branch r).channels := Cluster.setBranch_field Branch.channels c rfl
  have hstrand : ∀ r, ((c.setBranch p ((c.branch p).doAccept ⟨k, .acceptor⟩)).branch r).strand
      = (c.branch r).strand := Cluster.setBranch_field Branch.strand c rfl
  refine h.stutter (h.joined.accept p hk) ?_ (fun r _ => hchannels r)
    (fun r _ => Cluster.setBranch_field Branch.money c (by rfl) r)
    (fun r _ => Cluster.setBranch_field Branch.snapshot c (by rfl) r) (fun r _ q ch _ => ?_)
    (fun r _ => ?_)
  · refine h.traffic.mono (fun r _ => hchannels r) (fun r _ t ht => Or.inl ?_)
      (fun r _ ch _ m hm => Or.inl hm)
    exact hstrand r ▸ ht
  · rw [linkOf, linkOf, hstrand]
    rfl
  · rw [pendingInits, pendingInits, hstrand]
    exact le_rfl

/-! ### Every step -/

/-- A message that is no packet posts tasks that stand for no marker: the links do not change. -/
theorem post (h : Simulates N s c x) {q : Name} {ch : Channel} {msg : BranchMessage}
    {rest : List BranchMessage} (hq : q ∈ N) (hhost : ch.host = some q)
    (hqueue : c.queue ch = msg :: rest) {posted : List Task} (hpacket : packet msg = none)
    (hok : ∀ t ∈ posted, TaskOk s c q t)
    (hnot : ∀ t ∈ posted, ∀ ch', waitingMarker ch' t = none)
    (hcount : posted.count (.initSnapshot s) + rest.count (.initSnapshot s)
      ≤ (msg :: rest).count (.initSnapshot s)) :
    Simulates N s
      (({ c with queue := fun y => if y = ch then rest else c.queue y } : Cluster).update q
        ({ c.branch q with strand := (c.branch q).strand ++ posted }, [])) x := by
  refine h.handle hq hhost hqueue rfl hok (fun p _ => ?_) (fun t ht ch' _ => hnot t ht ch') hcount
  have hnone : posted.filterMap (waitingMarker ch) = [] := by
    rw [List.filterMap_eq_nil_iff]
    exact fun t ht => hnot t ht ch
  rw [linkOf, linkOf, hqueue, List.filterMap_append, hnone, List.append_nil,
    List.filterMap_cons, hpacket]

/-- A message that is handled: a Transfer is received, anything else is a step that the abstract
algorithm does not see. -/
theorem deliver (h : Simulates N s c x) {ch : Channel}
    (hstep : SnapshotStep N c (.deliver ch)) (hc : c.deliver ch = some c') :
    ∃ x', Relation.ReflTransGen (Step N (2 ^ 64)) x x' ∧ Simulates N s c' x' := by
  obtain ⟨q, hq, hhost, hguard⟩ := hstep
  obtain ⟨q', msg, rest, r, hhost', hqueue, _, hr, rfl⟩ := Cluster.deliver_eq_some hc
  obtain rfl : q' = q := Option.some.inj (hhost'.symm.trans hhost)
  have hwait : (c.branch q').strand.filterMap (waitingMarker ch) = [] := by
    rw [List.filterMap_eq_nil_iff]
    intro t ht
    cases t with
    | marker id ci =>
      have hne : ci.second ≠ ch := fun he => hguard _ ht (by rw [Task.channel, he])
      exact if_neg hne
    | _ => rfl
  -- a message that posts a task that is no marker, or nothing
  have hpost : ∀ posted : List Task, packet msg = none →
      (∀ t ∈ posted, TaskOk s c q' t) → (∀ t ∈ posted, ∀ ch', waitingMarker ch' t = none) →
      posted.count (.initSnapshot s) + rest.count (.initSnapshot s)
        ≤ (msg :: rest).count (.initSnapshot s) →
      r = ({ c.branch q' with strand := (c.branch q').strand ++ posted }, []) →
      ∃ x', Relation.ReflTransGen (Step N (2 ^ 64)) x x' ∧ Simulates N s
        (({ c with queue := fun y => if y = ch then rest else c.queue y } : Cluster).update q' r)
        x' := by
    rintro posted hpacket hok hnot hcount rfl
    exact ⟨x, .refl, h.post hq hhost hqueue hpacket hok hnot hcount⟩
  rcases h.traffic.messages q' hq ch hhost msg (by rw [hqueue]; exact List.mem_cons_self) with
    hharmless | ⟨_, rfl⟩ | ⟨p, hl, rfl | ⟨a, rfl⟩⟩
  · cases msg with
    | retrieveSnapshot id =>
      refine hpost [.retrieveSnapshot id ⟨(c.branch q').handlerName ch, ch⟩] rfl ?_ ?_ ?_
        (Except.ok.inj hr).symm
      · intro t ht
        rw [List.mem_singleton] at ht
        exact Or.inl ⟨_, _, ht⟩
      · intro t ht ch'
        rw [List.mem_singleton] at ht
        rw [ht]
        rfl
      · simp
    | returnSnapshot m =>
      exact hpost [] rfl (by simp) (by simp) (by simp)
        (by rw [List.append_nil]; exact (Except.ok.inj hr).symm)
    | notSet =>
      exact hpost [] rfl (by simp) (by simp) (by simp)
        (by rw [List.append_nil]; exact (Except.ok.inj hr).symm)
    | _ => exact hharmless.elim
  · refine hpost [.initSnapshot s] rfl ?_ ?_ ?_ (Except.ok.inj hr).symm
    · intro t ht
      exact Or.inr (Or.inl (List.mem_singleton.mp ht))
    · intro t ht ch'
      rw [List.mem_singleton.mp ht]
      rfl
    · simp [Nat.add_comm]
  · -- a marker: its task now stands for it
    obtain ⟨_, hname, _⟩ := h.joined.linked_spec hq hl
    rw [hname] at hr
    obtain rfl := Except.ok.inj hr
    refine ⟨x, .refl, @handle N s c x q' ch _ rest _ [.marker s ⟨p, ch⟩] h hq hhost hqueue rfl ?_
      (fun _ _ => ?_) ?_ ?_⟩
    · intro t ht
      exact Or.inr (Or.inr ⟨p, ch, hl, List.mem_singleton.mp ht⟩)
    · rw [linkOf, linkOf, hqueue]
      simp [Branch.post, hwait, waitingMarker, packet]
    · intro t ht ch' hch'
      rw [List.mem_singleton.mp ht]
      exact if_neg (Ne.symm hch')
    · simp
  · -- a transfer
    obtain ⟨_, hname, _⟩ := h.joined.linked_spec hq hl
    rw [hname] at hr
    obtain rfl := Except.ok.inj hr
    obtain ⟨hp, hpq⟩ := h.joined.mem_of_linked hq hl
    obtain ⟨l, hlink, hsim⟩ := h.transfer hq hl hqueue hwait
    exact ⟨_, .single (.receive hp hq hpq hlink), hsim⟩

/-- A task that runs: a marker is acted on, before which the snapshot starts if it is the first. -/
theorem runTask (h : Simulates N s c x) {q : Name} (hq : q ∈ N) (hc : c.runTask q = some c') :
    ∃ x', Relation.ReflTransGen (Step N (2 ^ 64)) x x' ∧ Simulates N s c' x' := by
  obtain ⟨t, rest, r, hstrand, hr, rfl⟩ := Cluster.runTask_eq_some hc
  set b : Branch := { c.branch q with strand := rest } with hb
  have hbq : (c.update q (b, [])).branch q = b := Cluster.update_self c q (b, [])
  rcases h.traffic.tasks q hq t (by rw [hstrand]; exact List.mem_cons_self) with
    ⟨id, ci, rfl⟩ | rfl | ⟨p, ch, hl, rfl⟩
  · -- answering the controller changes nothing at the branch
    have hsim : Simulates N s (c.update q (b, [])) x := h.pop hq hstrand fun _ => rfl
    obtain ⟨hr1, hharmless, hopened⟩ := retrieveSnapshotTask_ok hr
    have hreply := hsim.reply q hharmless hopened
    rw [hbq, Cluster.update_update', ← hr1] at hreply
    exact ⟨x, .refl, hreply⟩
  · -- the snapshot starts here
    have hsim : Simulates N s (c.update q (b, [])) x := h.pop hq hstrand fun _ => rfl
    have hpop : ∀ p, pendingInits s (c.update q (b, [])) p
        + (if p = q ∧ Task.initSnapshot s = .initSnapshot s then 1 else 0)
        = pendingInits s c p := @pendingInits_pop s c q _ b hstrand
    have hlt : ∑ p ∈ N, pendingInits s (c.update q (b, [])) p < ∑ p ∈ N, pendingInits s c p := by
      refine Finset.sum_lt_sum (fun p _ => ?_) ⟨q, hq, ?_⟩
      · rw [← hpop p]
        exact Nat.le_add_right _ _
      · rw [← hpop q, if_pos ⟨rfl, rfl⟩]
        exact Nat.lt_succ_self _
    have honce := h.once
    have hidle := h.idle (by omega)
    have hrec := hidle.unrecorded q hq
    have hstart := hsim.start hq hrec (by omega)
    rw [hbq, Cluster.update_update'] at hstart
    obtain rfl := Except.ok.inj hr
    exact ⟨_, .single (.start hq hrec), hstart⟩
  · obtain rfl := Except.ok.inj hr
    obtain ⟨hp, hpq⟩ := h.joined.mem_of_linked hq hl
    by_cases hid : (c.branch q).snapshot.map Snapshot.id = some s
    · -- the snapshot is running: the link closes
      obtain ⟨l, hlink, hrec, hclose⟩ := h.close hq hl hstrand hid
      rw [Branch.markerTask, if_pos hid]
      exact ⟨_, .single (.marker hp hq hpq hrec hlink), hclose⟩
    · -- the first marker: the snapshot starts, then the link closes
      have hlink : ∃ l, x.link p q = .marker :: l := by
        rw [h.link q hq p ch hl, linkOf, hstrand, List.filterMap_cons]
        simp only [waitingMarker, if_true, List.cons_append]
        exact ⟨_, rfl⟩
      obtain ⟨l₀, hl₀⟩ := hlink
      have hrec : x.recorded q = none := by
        rw [h.recorded q hq, recordedBalance]
        cases hsn : (c.branch q).snapshot with
        | none => rfl
        | some sn =>
          have hne : sn.id ≠ s := fun he => hid (by rw [hsn, Option.map_some, he])
          exact if_neg hne
      have hstart := h.start hq hrec (h.no_inits hp hq hpq hl₀)
      have hself : (c.update q ((c.branch q).startSnapshot s)).branch q
          = ((c.branch q).startSnapshot s).1 := Cluster.update_self c q _
      have hl' : Linked (c.update q ((c.branch q).startSnapshot s)) p q ch := by
        rw [Linked, hself]
        exact hl
      have hstrand' : ((c.update q ((c.branch q).startSnapshot s)).branch q).strand
          = .marker s ⟨p, ch⟩ :: rest := by
        rw [hself]
        exact hstrand
      obtain ⟨l, hlink, hrec', hclose⟩ := hstart.close hq hl' hstrand' (by rw [hself]; rfl)
      rw [hself, Cluster.update_update c q ((c.branch q).startSnapshot s).1] at hclose
      rw [Branch.markerTask, if_neg hid]
      exact ⟨_, (Relation.ReflTransGen.single (.start hq hrec)).tail
        (.marker hp hq hpq hrec' hlink), hclose⟩

/-- One call of `do_send_money`, which sends nothing when the draw is zero. -/
theorem sendMoney (h : Simulates N s c x) {p : Name} {i : ℕ} {attempts : List Branch.Attempt}
    (hp : p ∈ N) (hc : c.sendMoney p i attempts = some c') :
    ∃ x', Relation.ReflTransGen (Step N (2 ^ 64)) x x' ∧ Simulates N s c' x' := by
  obtain ⟨e, a, he, hle, rfl⟩ := Cluster.sendMoney_eq_some hc
  by_cases ha : a > 0
  · obtain ⟨q, hq, hpq, hbal, hsim⟩ := h.send hp he hle
    rw [if_pos ha]
    exact ⟨_, .single (.send hp hq hpq hbal), hsim⟩
  · have hzero : a = 0 := by
      rw [gt_iff_lt, UInt64.not_lt] at ha
      exact UInt64.le_zero_iff.mp ha
    have hsame : ({ c.branch p with money := (c.branch p).money - a } : Branch) = c.branch p := by
      rw [hzero, UInt64.sub_zero]
    rw [if_neg ha, hsame]
    exact ⟨x, .refl, h.reply p (fun y m hm => by cases hm) rfl⟩

/-- **Every step of the cluster is matched by the abstract algorithm.** -/
theorem step (h : Simulates N s c x) {a : Action} (hstep : SnapshotStep N c a)
    (hc : c.step a = some c') :
    ∃ x', Relation.ReflTransGen (Step N (2 ^ 64)) x x' ∧ Simulates N s c' x' := by
  cases a with
  | controllerSend p msg => exact hstep.elim
  | connect peer ch =>
    obtain ⟨_, _, hmem, _⟩ := Cluster.connect_eq_some hc
    rw [h.joined.connected] at hmem
    cases hmem
  | accept p k =>
    obtain ⟨hk, _, rfl⟩ := Cluster.accept_eq_some hc
    exact ⟨x, .refl, h.accept hk⟩
  | deliver ch => exact h.deliver hstep hc
  | runTask p => exact h.runTask hstep hc
  | sendMoney p i attempts => exact h.sendMoney hstep hc

end Simulates

end Cs457.Bank
