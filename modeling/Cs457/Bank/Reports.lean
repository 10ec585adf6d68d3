import Cs457.Bank.Completion
import Cs457.Bank.Succession

/-!
# Bank — what the controller is told

The controller starts one snapshot after the other and asks all branches for each of them. The
branches answer at different times, while they go on sending each other money and while the next
snapshot may have started; still, what they return for one id adds up to the money of the bank.

* **`Inspection.Timely`** — when the controller may start the next snapshot.
* **`Moves`** — what a step changes at a branch.
* **`Inspection.Reporting`** — the invariant of a run.
* **`Inspection.snapshot_finished`** — when nothing is on its way, the branches can answer.
* **`Inspection.returned_add_up`** — all the answers for one id.
-/

namespace Cs457.Bank

open GlobalSnapshot Transition

variable {N : Finset Name} {s : UInt64} {c c' : Cluster} {x : State Name} {T : ℕ}

/-! ## A complete snapshot -/

namespace Snapshot

/-- No channel of a complete snapshot is recording. -/
theorem not_recording {sn : Snapshot} {msg : ReturnSnapshot} (h : sn.toMessage = .ok msg)
    {k : Name} {t : UInt64} : sn.states.lookup k ≠ some (.recording t) := by
  intro hk
  obtain ⟨t', ht'⟩ := (exists_toMessage_iff sn).mp ⟨msg, h⟩ k _ hk
  cases ht'

/-- A complete snapshot counts no further Transfer. -/
theorem recordTx_of_toMessage {sn : Snapshot} {msg : ReturnSnapshot} (h : sn.toMessage = .ok msg)
    (sender : Name) (amount : UInt64) : sn.recordTx sender amount = sn := by
  unfold recordTx
  split
  · next hk => exact absurd hk (not_recording h)
  · rfl

/-- Nor does a further Marker change it. -/
theorem marker_of_toMessage {sn : Snapshot} {msg : ReturnSnapshot} (h : sn.toMessage = .ok msg)
    (sender : Name) : sn.marker sender = sn := by
  unfold marker
  split
  · next hk => exact absurd hk (not_recording h)
  · rfl

end Snapshot

/-! ## A step, seen from a branch -/

def BranchMessage.returned? : BranchMessage → Option ReturnSnapshot
  | .returnSnapshot msg => some msg
  | _ => none

/-- What `q` has returned to the controller. -/
def returned (c : Cluster) (q : Name) : List ReturnSnapshot :=
  (c.queue ⟨.controller q, .opener⟩).filterMap BranchMessage.returned?

/-- Nobody has asked on behalf of another branch. -/
def Asked (c : Cluster) (q : Name) : Prop :=
  ∀ id ci, .retrieveSnapshot id ci ∈ (c.branch q).strand → ci.second.host = some q

/-- What a step changes at the branch `q` while the snapshot `s` is taken. -/
structure Moves (s : UInt64) (c c' : Cluster) (q : Name) : Prop where
  snapshot : (c'.branch q).snapshot = (c.branch q).snapshot ∨
    (∃ p a, (c'.branch q).snapshot = (c.branch q).snapshot.map fun sn => sn.recordTx p a) ∨
    (∃ p, (c'.branch q).snapshot = (c.branch q).snapshot.map fun sn => sn.marker p) ∨
    (c.branch q).heldId ≠ some s ∧ (c'.branch q).heldId = some s
  asked : Asked c q → Asked c' q
  answered : returned c' q = returned c q ∨ ∃ sn msg, (c.branch q).snapshot = some sn ∧
    sn.toMessage = .ok msg ∧ (c'.branch q).snapshot = some sn ∧
    returned c' q = returned c q ++ [{ msg with name := (c.branch q).name }]

/-- A step that neither touches the snapshot, nor posts a request, nor answers one. -/
theorem Moves.of_same {q : Name} (hsnapshot : (c'.branch q).snapshot = (c.branch q).snapshot)
    (hstrand : ∀ id ci, .retrieveSnapshot id ci ∈ (c'.branch q).strand →
      .retrieveSnapshot id ci ∈ (c.branch q).strand)
    (hqueue : returned c' q = returned c q) : Moves s c c' q where
  snapshot := Or.inl hsnapshot
  asked h id ci hmem := h id ci (hstrand id ci hmem)
  answered := Or.inl hqueue

/-- What is sent of other messages returns nothing. -/
theorem returned_update {p q : Name} {r : Branch × List Effect}
    (h : ∀ m ∈ Cluster.sentTo r.2 ⟨.controller q, .opener⟩, m.returned? = none) :
    returned (c.update p r) q = returned c q := by
  rw [returned, Cluster.update_queue, List.filterMap_append, List.filterMap_eq_nil_iff.mpr h,
    List.append_nil]
  rfl

/-- A message that is handled may be recorded or post a request, but answers nothing. -/
theorem Simulates.moves_deliver (h : Simulates N s c x) {ch : Channel}
    (hstep : SnapshotStep N c (.deliver ch)) (hc : c.deliver ch = some c') (q : Name) :
    Moves s c c' q := by
  obtain ⟨p', msg, rest, r, hp, hhost, hqueue, hmsg, hr, hsent, hstrand, rfl⟩ :=
    h.delivered hstep hc
  set c₁ : Cluster := { c with queue := fun y => if y = ch then rest else c.queue y } with hc₁
  -- nobody reads the controller's end here
  have hreturned : returned (c₁.update p' r) q = returned c q := by
    rw [returned_update (fun m hm => by rw [hsent] at hm; cases hm)]
    have hne : (⟨.controller q, .opener⟩ : Channel) ≠ ch := by
      rintro rfl
      cases hhost
    simp only [returned, hc₁, if_neg hne]
  by_cases hq : q = p'
  · subst hq
    refine ⟨?_, fun hasked id ci hmem => ?_, Or.inl hreturned⟩
    · rw [Cluster.update_self]
      cases msg with
      | transfer a =>
        cases hr
        exact Or.inr (Or.inl ⟨_, a, rfl⟩)
      | initBranch m => exact absurd rfl (hmsg m)
      | _ =>
        cases hr
        exact Or.inl rfl
    · rw [Cluster.update_self, hstrand] at hmem
      rcases List.mem_append.mp hmem with hmem | hmem
      · exact hasked id ci hmem
      · -- the request came on the channel of the message
        cases msg <;> simp only [Branch.posted, List.mem_singleton, List.not_mem_nil,
          reduceCtorEq] at hmem
        cases hmem
        exact hhost
  · have hbranch := Cluster.update_ne c₁ r hq
    exact .of_same (by rw [hbranch]) (fun id ci hmem => by rwa [hbranch] at hmem) hreturned

section

variable {p q : Name} {t : Task} {rest : List Task} {r : Branch × List Effect}

/-- A task that runs posts no request. -/
theorem Asked.update (h : Asked c q) (hstrand : (c.branch p).strand = t :: rest)
    (hrest : r.1.strand = rest) : Asked (c.update p r) q := by
  intro id ci hmem
  by_cases hq : q = p
  · subst hq
    rw [Cluster.update_self, hrest] at hmem
    exact h id ci (hstrand ▸ List.mem_cons_of_mem t hmem)
  · rw [Cluster.update_ne c r hq] at hmem
    exact h id ci hmem

/-- A branch that holds the snapshot asked for answers on the channel of the request, which is
its own. -/
theorem answered_retrieve {id : UInt64} {ci : ChannelInfo} (hhost : ci.second.host = some p)
    (hsnapshot : ((c.update p r).branch q).snapshot = (c.branch q).snapshot)
    (hr : ({ c.branch p with strand := rest } : Branch).retrieveSnapshotTask id ci = .ok r) :
    returned (c.update p r) q = returned c q ∨ ∃ sn msg, (c.branch q).snapshot = some sn ∧
      sn.toMessage = .ok msg ∧ ((c.update p r).branch q).snapshot = some sn ∧
      returned (c.update p r) q = returned c q ++ [{ msg with name := (c.branch q).name }] := by
  simp only [Branch.retrieveSnapshotTask] at hr
  split at hr
  · cases hr
  · next sn hsn =>
    split at hr
    · cases hmsg : sn.toMessage with
      | error f =>
        rw [hmsg] at hr
        cases hr
      | ok msg =>
        rw [hmsg] at hr
        obtain rfl := Except.ok.inj hr
        by_cases hci : ci.second.remote = ⟨.controller q, .opener⟩
        · have hsecond : ci.second = ⟨.controller q, .acceptor⟩ := by
            rw [← Channel.remote_remote ci.second, hci]
            rfl
          rw [hsecond] at hhost
          obtain rfl : q = p := Option.some.inj hhost
          refine Or.inr ⟨sn, msg, hsn, hmsg, hsnapshot.trans hsn, ?_⟩
          rw [returned, Cluster.update_queue, List.filterMap_append]
          simp only [Cluster.sentTo, List.filterMap_cons, List.filterMap_nil, hci, if_true,
            BranchMessage.returned?]
          rfl
        · refine Or.inl (returned_update fun m hm => ?_)
          simp only [Cluster.sentTo, List.filterMap_cons, List.filterMap_nil, hci, if_false,
            List.not_mem_nil] at hm
    · -- the id is another one, and the branch only reports it
      cases hr
      exact Or.inl (returned_update fun m hm => by cases hm)

/-- No branch holds the snapshot while its InitSnapshot waits. -/
theorem Simulates.not_held (h : Simulates N s c x) (hp : p ∈ N)
    (hmem : .initSnapshot s ∈ (c.branch p).strand) : (c.branch p).heldId ≠ some s := by
  have hpos : pendingInits s c p ≠ 0 := pendingInits_ne_zero.mpr (Or.inr hmem)
  have hle : pendingInits s c p ≤ ∑ p ∈ N, pendingInits s c p :=
    Finset.single_le_sum (fun _ _ => Nat.zero_le _) hp
  have honce := h.once
  have hrec := (h.idle (by omega)).unrecorded p hp
  rw [h.recorded p hp, recordedBalance] at hrec
  intro hheld
  obtain ⟨sn, hsn, hid⟩ := Option.map_eq_some_iff.mp hheld
  rw [hsn, Option.bind_some, if_pos hid] at hrec
  cases hrec

/-- A marker completes its channel, in a snapshot that it may start. -/
theorem snapshot_markerTask {b : Branch} {k : Name} {ch : Channel}
    (hsnapshot : b.snapshot = (c.branch p).snapshot) :
    ((b.markerTask s ⟨k, ch⟩).1.snapshot = (c.branch p).snapshot.map fun sn => sn.marker k) ∨
      (c.branch p).heldId ≠ some s ∧ (b.markerTask s ⟨k, ch⟩).1.heldId = some s := by
  rw [Branch.heldId, Branch.heldId, ← hsnapshot, Branch.markerTask]
  split
  · exact Or.inl rfl
  · next hne => exact Or.inr ⟨hne, congrArg some (Snapshot.marker_id _ _)⟩

/-- Only markers are sent for a marker. -/
theorem returned_markerTask {b : Branch} {k : Name} {ch : Channel} :
    returned (c.update p (b.markerTask s ⟨k, ch⟩)) q = returned c q := by
  refine returned_update fun m hm => ?_
  unfold Branch.markerTask at hm
  split at hm
  · cases hm
  · rw [Branch.startSnapshot_sent hm]
    rfl

end

/-- A task of a branch. One case for each task that the traffic of a snapshot allows. -/
theorem Simulates.moves_runTask (h : Simulates N s c x) {p : Name} (hp : p ∈ N)
    (hc : c.runTask p = some c') (hasked : Asked c p) (q : Name) : Moves s c c' q := by
  obtain ⟨t, rest, r, hstrand, hr, rfl⟩ := Cluster.runTask_eq_some hc
  have hrest : r.1.strand = rest := by
    obtain ⟨_, _, _, hrest, _⟩ := Branch.perform_ok hr
    exact hrest
  have hmem : t ∈ (c.branch p).strand := by
    rw [hstrand]
    exact List.mem_cons_self
  have hask : Asked c q → Asked (c.update p r) q := fun h => h.update hstrand hrest
  have hother : q ≠ p → ((c.update p r).branch q).snapshot = (c.branch q).snapshot := fun hq => by
    rw [Cluster.update_ne c r hq]
  rcases h.traffic.tasks p hp t hmem with ⟨id, ci, rfl⟩ | rfl | ⟨p', ch, hl, rfl⟩
  · -- the branch answers or reports
    have hsame : r.1.snapshot = (c.branch p).snapshot := by
      rcases Branch.retrieveSnapshotTask_eq hr with ⟨msg, rfl⟩ | ⟨text, rfl⟩ <;> rfl
    have hsnapshot : ((c.update p r).branch q).snapshot = (c.branch q).snapshot :=
      Cluster.update_field Branch.snapshot c hsame q
    exact ⟨Or.inl hsnapshot, hask, answered_retrieve (hasked id ci hmem) hsnapshot hr⟩
  · -- the branch starts the snapshot
    cases hr
    refine ⟨?_, hask, Or.inl (returned_update fun m hm => ?_)⟩
    · by_cases hq : q = p
      · subst hq
        refine Or.inr (Or.inr (Or.inr ⟨h.not_held hp hmem, ?_⟩))
        rw [Cluster.update_self]
        rfl
      · exact Or.inl (hother hq)
    · rw [Branch.startSnapshot_sent hm]
      rfl
  · -- the branch acts on a marker
    cases hr
    refine ⟨?_, hask, Or.inl returned_markerTask⟩
    by_cases hq : q = p
    · subst hq
      simp only [Cluster.update_self, Branch.heldId]
      rcases @snapshot_markerTask s c q { c.branch q with strand := rest } p' ch rfl with
        hmarker | hstart
      · exact Or.inr (Or.inr (Or.inl ⟨p', hmarker⟩))
      · exact Or.inr (Or.inr (Or.inr hstart))
    · exact Or.inl (hother hq)

/-- **What a step changes at a branch.** -/
theorem Simulates.moves (h : Simulates N s c x) {a : Action} (hstep : SnapshotStep N c a)
    (hc : c.step a = some c') (hasked : ∀ p ∈ N, Asked c p) (q : Name) : Moves s c c' q := by
  cases a with
  | controllerSend p msg => exact hstep.elim
  | connect peer ch =>
    obtain ⟨p, _, hmem, _⟩ := Cluster.connect_eq_some hc
    rw [h.joined.connected] at hmem
    cases hmem
  | accept p k =>
    obtain ⟨_, _, rfl⟩ := Cluster.accept_eq_some hc
    have hstrand : ∀ r, ((c.setBranch p ((c.branch p).doAccept ⟨k, .acceptor⟩)).branch r).strand
        = (c.branch r).strand := Cluster.setBranch_field Branch.strand c rfl
    exact .of_same (Cluster.setBranch_field Branch.snapshot c (by rfl) q)
      (fun id ci hmem => hstrand q ▸ hmem) rfl
  | sendMoney p i attempts =>
    obtain ⟨e, toSend, _, _, rfl⟩ := Cluster.sendMoney_eq_some hc
    refine .of_same (Cluster.update_field Branch.snapshot c (by rfl) q) (fun id ci hmem => ?_)
      (returned_update fun m hm => ?_)
    · rwa [Cluster.update_field Branch.strand c (by rfl)] at hmem
    · -- only a Transfer is sent
      split at hm
      · simp only [Cluster.sentTo, List.filterMap_cons, List.filterMap_nil] at hm
        split at hm
        · cases hm
        · next heq =>
          simp only [Option.ite_none_right_eq_some, Option.some.injEq] at heq
          rw [List.mem_singleton.mp hm, ← heq.2]
          rfl
      · cases hm
  | deliver ch => exact h.moves_deliver hstep hc q
  | runTask p => exact h.moves_runTask hstep hc (hasked p hstep) q

/-- A complete snapshot stays as it is until the branch starts the next one. -/
theorem Moves.keeps {q : Name} (h : Moves s c c' q) {sn : Snapshot} {msg : ReturnSnapshot}
    (hsn : (c.branch q).snapshot = some sn) (hmsg : sn.toMessage = .ok msg) :
    (c'.branch q).snapshot = some sn ∨ sn.id ≠ s ∧ (c'.branch q).heldId = some s := by
  rcases h.snapshot with hsame | ⟨p, a, hrecord⟩ | ⟨p, hmarker⟩ | ⟨hne, hheld⟩
  · exact Or.inl (hsame.trans hsn)
  · rw [hsn, Option.map_some, Snapshot.recordTx_of_toMessage hmsg] at hrecord
    exact Or.inl hrecord
  · rw [hsn, Option.map_some, Snapshot.marker_of_toMessage hmsg] at hmarker
    exact Or.inl hmarker
  · refine Or.inr ⟨fun hid => hne ?_, hheld⟩
    rw [Branch.heldId, hsn, Option.map_some, hid]

/-- A snapshot with another id than the one that is taken has been there before. -/
theorem Moves.older {q : Name} (h : Moves s c c' q) {sn' : Snapshot}
    (hsn' : (c'.branch q).snapshot = some sn') (hid : sn'.id ≠ s) :
    ∃ sn, (c.branch q).snapshot = some sn ∧ sn.id = sn'.id := by
  rcases h.snapshot with hsame | ⟨p, a, hrecord⟩ | ⟨p, hmarker⟩ | ⟨_, hheld⟩
  · exact ⟨sn', hsame.symm.trans hsn', rfl⟩
  · obtain ⟨sn, hsn, rfl⟩ := Option.map_eq_some_iff.mp (hrecord.symm.trans hsn')
    exact ⟨sn, hsn, (Snapshot.recordTx_id sn p a).symm⟩
  · obtain ⟨sn, hsn, rfl⟩ := Option.map_eq_some_iff.mp (hmarker.symm.trans hsn')
    exact ⟨sn, hsn, (Snapshot.marker_id sn p).symm⟩
  · rw [Branch.heldId, hsn', Option.map_some, Option.some.injEq] at hheld
    exact absurd hheld hid

/-- Asking a branch returns nothing yet. -/
theorem returned_ask (msg : BranchMessage) (c : Cluster) (p q : Name) :
    returned (Inspection.ask msg c p) q = returned c q := by
  have hne : (⟨.controller q, .opener⟩ : Channel) ≠ (⟨.controller p, .opener⟩ : Channel).remote :=
    fun heq => (by cases heq)
  simp only [returned, Inspection.ask, Cluster.send, if_neg hne]

/-! ## The answers so far -/

/-- The answers that the branches have given while the snapshot `cur` is the last one: `filed` has
what the branches recorded for the earlier ones. -/
structure Filing (N : Finset Name) (T : ℕ) (filed : UInt64 → Option (Name → LocalSnapshot))
    (cur : UInt64) (c : Cluster) : Prop where
  taking : ∃ x, Taking N T cur c x
  asked : ∀ q ∈ N, Asked c q
  sums : ∀ i rows, filed i = some rows → WrapLe (2 ^ 64) (∑ q ∈ N, (rows q).worth) T
  earlier : ∀ i rows, filed i = some rows → i.toNat < cur.toNat
  held : ∀ q ∈ N, ∀ sn, (c.branch q).snapshot = some sn → sn.id ≠ cur →
    ∃ rows msg, filed sn.id = some rows ∧ sn.toMessage = .ok msg ∧ msg.localSnapshot = rows q
  answered : ∀ q ∈ N, ∀ m ∈ returned c q,
    (∃ rows, filed m.localSnapshot.snapshotId = some rows ∧ m.localSnapshot = rows q) ∨
    ∃ sn msg, (c.branch q).snapshot = some sn ∧ sn.id = cur ∧ sn.toMessage = .ok msg ∧
      m.localSnapshot = msg.localSnapshot

namespace Filing

variable {filed : UInt64 → Option (Name → LocalSnapshot)} {cur : UInt64}

/-- A step of the branches. -/
theorem step (h : Filing N T filed cur c) {a : Action} (hstep : SnapshotStep N c a)
    (hc : c.step a = some c') : Filing N T filed cur c' := by
  obtain ⟨x, hx⟩ := h.taking
  have hmoves := fun q => hx.simulates.moves hstep hc h.asked q
  have hold : ∀ q ∈ N, ∀ m ∈ returned c q,
      (∃ rows, filed m.localSnapshot.snapshotId = some rows ∧ m.localSnapshot = rows q) ∨
      ∃ sn msg, (c'.branch q).snapshot = some sn ∧ sn.id = cur ∧ sn.toMessage = .ok msg ∧
        m.localSnapshot = msg.localSnapshot := by
    intro q hq m hm
    refine (h.answered q hq m hm).imp_right fun ⟨sn, msg, hsn, hid, hmsg, heq⟩ => ?_
    rcases (hmoves q).keeps hsn hmsg with hsn' | ⟨hne, _⟩
    · exact ⟨sn, msg, hsn', hid, hmsg, heq⟩
    · exact absurd hid hne
  refine ⟨hx.step hstep hc, fun q hq => (hmoves q).asked (h.asked q hq), h.sums, h.earlier,
    fun q hq sn' hsn' hid => ?_, fun q hq m hm => ?_⟩
  · obtain ⟨sn, hsn, heq⟩ := (hmoves q).older hsn' hid
    obtain ⟨rows, msg, hfiled, hmsg, hrow⟩ := h.held q hq sn hsn (heq ▸ hid)
    rcases (hmoves q).keeps hsn hmsg with hkeep | ⟨_, hheld⟩
    · obtain rfl := Option.some.inj (hkeep.symm.trans hsn')
      exact ⟨rows, msg, hfiled, hmsg, hrow⟩
    · rw [Branch.heldId, hsn', Option.map_some, Option.some.injEq] at hheld
      exact absurd hheld hid
  · rcases (hmoves q).answered with hsame | ⟨sn, msg, hsn, hmsg, hsn', hnew⟩
    · exact hold q hq m (hsame ▸ hm)
    · rw [hnew, List.mem_append, List.mem_singleton] at hm
      rcases hm with hm | rfl
      · exact hold q hq m hm
      · -- the new answer
        by_cases hid : sn.id = cur
        · exact Or.inr ⟨sn, msg, hsn', hid, hmsg, rfl⟩
        · obtain ⟨rows, msg', hfiled, hmsg', hrow⟩ := h.held q hq sn hsn hid
          obtain rfl := Except.ok.inj (hmsg.symm.trans hmsg')
          obtain ⟨hmid, _⟩ := Snapshot.toMessage_ok hmsg
          exact Or.inl ⟨rows, by rw [hmid]; exact hfiled, hrow⟩

/-- Only what waits for the branches changes. -/
theorem congr (h : Filing N T filed cur c) (htaking : ∃ x, Taking N T cur c' x)
    (hbranch : c'.branch = c.branch) (hreturned : ∀ q, returned c' q = returned c q) :
    Filing N T filed cur c' where
  taking := htaking
  asked q hq id ci hmem := h.asked q hq id ci (hbranch ▸ hmem)
  sums := h.sums
  earlier := h.earlier
  held q hq sn hsn := h.held q hq sn (hbranch ▸ hsn)
  answered q hq m hm := by
    rw [hbranch]
    exact h.answered q hq m (hreturned q ▸ hm)

/-- **The answers for one id** add up. -/
theorem worth (h : Filing N T filed cur c) (hN : N.Nonempty) {id : UInt64}
    {msgs : Name → ReturnSnapshot} (hmsgs : ∀ q ∈ N, msgs q ∈ returned c q ∧
      (msgs q).localSnapshot.snapshotId = id) :
    WrapLe (2 ^ 64) (∑ q ∈ N, (msgs q).localSnapshot.worth) T := by
  by_cases hid : id = cur
  · -- the last snapshot: the branches still hold it
    obtain ⟨x, hx⟩ := h.taking
    have hcurrent : ∀ q ∈ N, ∃ msg : ReturnSnapshot, (∃ sn, (c.branch q).snapshot = some sn ∧
        sn.id = cur ∧ sn.toMessage = .ok msg) ∧ (msgs q).localSnapshot = msg.localSnapshot := by
      intro q hq
      obtain ⟨hm, hmid⟩ := hmsgs q hq
      rcases h.answered q hq _ hm with ⟨rows, hfiled, _⟩ | ⟨sn, msg, hsn, hsnid, hmsg, heq⟩
      · rw [hmid, hid] at hfiled
        exact absurd (h.earlier _ _ hfiled) (Nat.lt_irrefl _)
      · exact ⟨msg, ⟨sn, hsn, hsnid, hmsg⟩, heq⟩
    have : Nonempty ReturnSnapshot := ⟨⟨⟨0, 0, []⟩, ""⟩⟩
    choose! reports hreports using hcurrent
    have hsum := hx.worth fun q hq => (hreports q hq).1
    rwa [← Finset.sum_congr rfl fun q hq => congrArg LocalSnapshot.worth (hreports q hq).2] at hsum
  · -- an earlier one: it has been filed
    have hearlier : ∀ q ∈ N, ∃ rows, filed id = some rows ∧ (msgs q).localSnapshot = rows q := by
      intro q hq
      obtain ⟨hm, hmid⟩ := hmsgs q hq
      rcases h.answered q hq _ hm with ⟨rows, hfiled, heq⟩ | ⟨sn, msg, _, hsnid, hmsg, heq⟩
      · exact ⟨rows, hmid ▸ hfiled, heq⟩
      · obtain ⟨hmsgid, _⟩ := Snapshot.toMessage_ok hmsg
        rw [← heq, hmid, hsnid] at hmsgid
        exact absurd hmsgid hid
    obtain ⟨p, hp⟩ := hN
    obtain ⟨rows, hfiled, _⟩ := hearlier p hp
    have hrows : ∀ q ∈ N, (msgs q).localSnapshot.worth = (rows q).worth := by
      intro q hq
      obtain ⟨rows', hfiled', heq⟩ := hearlier q hq
      obtain rfl := Option.some.inj (hfiled.symm.trans hfiled')
      rw [heq]
    rw [Finset.sum_congr rfl hrows]
    exact h.sums id rows hfiled

/-- The next snapshot starts: what the branches hold is filed. -/
theorem restart (h : Filing N T filed cur c) (hcleared : Cleared N c) {p : Name} (hp : p ∈ N)
    {id : UInt64} (hid : cur.toNat < id.toNat) :
    ∃ filed', Filing N T filed' id (Inspection.ask (.initSnapshot id) c p) := by
  -- The snapshot in progress has finished at every branch; its reports are filed under `cur`.
  obtain ⟨x, hx⟩ := h.taking
  obtain ⟨hsettled, msgs, hmsgs⟩ := hx.reported hcleared
  have hne : cur ≠ id := fun heq => absurd (heq ▸ hid) (Nat.lt_irrefl _)
  have hfresh : ∀ q ∈ N, (c.branch q).snapshot.map Snapshot.id ≠ some id := by
    intro q hq heq
    obtain ⟨sn, hsn, hsnid, _⟩ := hmsgs q hq
    rw [hsn, Option.map_some, hsnid, Option.some.injEq] at heq
    exact hne heq
  refine ⟨Function.update filed cur (some fun q => (msgs q).localSnapshot),
    ⟨_, Taking.start hsettled hp hfresh hx.total⟩, h.asked, fun i rows hrows => ?_,
    fun i rows hrows => ?_, fun q hq sn hsn _ => ?_, fun q hq m hm => ?_⟩
  · -- The sums: the report just filed, and those of before.
    by_cases hi : i = cur
    · subst hi
      rw [Function.update_self, Option.some.injEq] at hrows
      exact hrows ▸ hx.worth hmsgs
    · rw [Function.update_of_ne hi] at hrows
      exact h.sums i rows hrows
  · by_cases hi : i = cur
    · exact hi ▸ hid
    · rw [Function.update_of_ne hi] at hrows
      exact (h.earlier i rows hrows).trans hid
  · -- What a branch still holds is what was filed for it.
    obtain ⟨sn', hsn', hsnid, hmsg⟩ := hmsgs q hq
    obtain rfl := Option.some.inj (hsn'.symm.trans hsn)
    exact ⟨_, msgs q, by rw [hsnid, Function.update_self], hmsg, rfl⟩
  · -- The answers under way: those to an earlier id keep their file, those to `cur` are the new
    -- one.
    refine Or.inl ?_
    rw [returned_ask] at hm
    rcases h.answered q hq m hm with ⟨rows, hfiled, heq⟩ | ⟨sn, msg, hsn, hsnid, hmsg, heq⟩
    · have hi : m.localSnapshot.snapshotId ≠ cur := fun hi =>
        absurd (hi ▸ h.earlier _ _ hfiled) (Nat.lt_irrefl _)
      exact ⟨rows, by rw [Function.update_of_ne hi]; exact hfiled, heq⟩
    · obtain ⟨sn', hsn', _, hmsg'⟩ := hmsgs q hq
      obtain rfl := Option.some.inj (hsn'.symm.trans hsn)
      obtain rfl := Except.ok.inj (hmsg'.symm.trans hmsg)
      obtain ⟨hmid, _⟩ := Snapshot.toMessage_ok hmsg
      exact ⟨_, by rw [heq, hmid, hsnid, Function.update_self], heq⟩

end Filing

/-- The controller asks a branch for what it has recorded. -/
theorem Taking.ask (h : Taking N T s c x) (id : UInt64) (p : Name) :
    Taking N T s (Inspection.ask (.retrieveSnapshot id) c p) x := by
  -- The request for a report is the one message added, to the channel of `p`.
  have hqueue : ∀ ch, (Inspection.ask (.retrieveSnapshot id) c p).queue ch
      = c.queue ch ++ if ch = (⟨.controller p, .opener⟩ : Channel).remote
          then [.retrieveSnapshot id] else [] := by
    intro ch
    show (if _ then _ else _) = _
    split
    · rfl
    · exact (List.append_nil _).symm
  have hinits : ∀ q, pendingInits s (Inspection.ask (.retrieveSnapshot id) c p) q
      = pendingInits s c q := by
    intro q
    rw [pendingInits, pendingInits, hqueue, List.count_append]
    split <;> rfl
  have hsim := h.simulates
  refine ⟨hsim.stutter (hsim.joined.withQueue _) ?_ (fun _ _ => rfl) (fun _ _ => rfl)
    (fun _ _ => rfl) (fun q _ r ch _ => ?_) (fun q _ => (hinits q).le), h.run, ?_⟩
  · refine hsim.traffic.mono (fun _ _ => rfl) (fun _ _ t ht => Or.inl ht)
      (fun q _ ch _ msg hmsg => ?_)
    rw [hqueue, List.mem_append] at hmsg
    refine hmsg.imp_right fun hnew => Or.inl ?_
    split at hnew
    · rw [List.mem_singleton.mp hnew]
      trivial
    · cases hnew
  · -- A RetrieveSnapshot is not a packet of the abstract protocol.
    rw [linkOf, linkOf, hqueue, List.filterMap_append]
    split
    · rw [show [BranchMessage.retrieveSnapshot id].filterMap packet = [] from rfl,
        List.append_nil]
      rfl
    · rw [List.filterMap_nil, List.append_nil]
      rfl
  · rcases h.begun with ⟨q, hq, hne⟩ | hbegun
    · exact Or.inl ⟨q, hq, by rwa [hinits]⟩
    · exact Or.inr hbegun

/-- The controller asks all branches. -/
theorem Filing.foldl_ask {filed : UInt64 → Option (Name → LocalSnapshot)} {cur : UInt64}
    (h : Filing N T filed cur c) (id : UInt64) (peers : List Name) :
    Filing N T filed cur (peers.foldl (Inspection.ask (.retrieveSnapshot id)) c) := by
  induction peers generalizing c with
  | nil => exact h
  | cons p peers ih =>
    obtain ⟨x, hx⟩ := h.taking
    exact ih (h.congr ⟨x, hx.ask id p⟩ rfl fun q => returned_ask _ c p q)

/-! ## The controller -/

namespace Inspection

/-- The controller waits until nothing of the last snapshot is on its way before it starts the next
one, and it does not run out of numbers. A branch handles a message when the task that the last
message of the same channel posted has run. -/
def Timely (s : Inspection) : InspectionAction → Prop
  | .doSnapshot _ => Cleared s.peers.toFinset s.cluster
  | .doRetrieveSnapshot => s.snapshotId.toNat + 1 < 2 ^ 64
  | .branches a => SnapshotStep s.peers.toFinset s.cluster a

instance (s : Inspection) : DecidablePred (Timely s) := fun a =>
  match a with
  | .doSnapshot _ => inferInstanceAs (Decidable (Cleared s.peers.toFinset s.cluster))
  | .doRetrieveSnapshot => inferInstanceAs (Decidable (s.snapshotId.toNat + 1 < 2 ^ 64))
  | .branches a => inferInstanceAs (Decidable (SnapshotStep s.peers.toFinset s.cluster a))

/-- A connected bank that has not been asked for anything. -/
structure Unasked (names : List Name) (c : Cluster) : Prop
    extends Settled names.toFinset c where
  snapshots : ∀ q ∈ names, (c.branch q).snapshot = none
  strands : ∀ q ∈ names, (c.branch q).strand = []
  silent : ∀ q ∈ names, returned c q = []

/-- **The invariant of a run** since the first snapshot, which the branches are taking or have
taken. -/
structure Reporting (names : List Name) (T : ℕ) (filed : UInt64 → Option (Name → LocalSnapshot))
    (cur : UInt64) (s : Inspection) : Prop where
  peers : s.peers = names
  number : s.snapshotId.toNat = cur.toNat + if s.retrieving then 0 else 1
  filing : Filing names.toFinset T filed cur s.cluster

variable {peers : List Name} {filed : UInt64 → Option (Name → LocalSnapshot)} {cur : UInt64}
  {s s' : Inspection} {p : Name}

/-- The first snapshot. -/
theorem reporting_first {c₀ : Cluster} (hstart : Unasked peers c₀)
    (hstep : step { cluster := c₀, peers := peers } (.doSnapshot p) = some s) :
    p ∈ peers ∧ Reporting peers (c₀.total peers.toFinset) (fun _ => none) 1 s := by
  simp only [step] at hstep
  split at hstep
  · next hguard =>
    cases hstep
    have hp := List.mem_toFinset.mpr hguard.2
    refine ⟨hguard.2, rfl, rfl, ⟨_, Taking.start hstart.toSettled hp (fun q hq heq => ?_)
      (WrapLe.refl _ _)⟩, fun q hq id ci hmem => ?_, fun i rows h => (by cases h),
      fun i rows h => (by cases h), fun q hq sn hsn _ => ?_, fun q hq m hm => ?_⟩
    · rw [hstart.snapshots q (List.mem_toFinset.mp hq)] at heq
      cases heq
    · have hmem' : Task.retrieveSnapshot id ci ∈ (c₀.branch q).strand := hmem
      rw [hstart.strands q (List.mem_toFinset.mp hq)] at hmem'
      cases hmem'
    · have hsn' : (c₀.branch q).snapshot = some sn := hsn
      rw [hstart.snapshots q (List.mem_toFinset.mp hq)] at hsn'
      cases hsn'
    · have hm' : m ∈ returned (ask (.initSnapshot 1) c₀ p) q := hm
      rw [returned_ask, hstart.silent q (List.mem_toFinset.mp hq)] at hm'
      cases hm'
  · cases hstep

/-- Every timely step keeps what is filed: the answers of the snapshots that are complete. -/
theorem Reporting.step (h : Reporting peers T filed cur s) {a : InspectionAction}
    (ha : Timely s a) (hstep : s.step a = some s') :
    ∃ filed cur, Reporting peers T filed cur s' := by
  have hnumber := h.number
  cases a with
  -- A new snapshot starts only when the last one is cleared, and under a larger id.
  | doSnapshot p =>
    simp only [Inspection.step] at hstep
    split at hstep
    · next hguard =>
      cases hstep
      rw [hguard.1] at hnumber
      simp only [Bool.false_eq_true, if_false] at hnumber
      have hcleared : Cleared peers.toFinset s.cluster := h.peers ▸ ha
      have hp : p ∈ peers.toFinset := List.mem_toFinset.mpr (h.peers ▸ hguard.2)
      have hlater : cur.toNat < s.snapshotId.toNat := by omega
      obtain ⟨filed', hfiling⟩ := h.filing.restart hcleared hp hlater
      exact ⟨filed', s.snapshotId, h.peers, rfl, hfiling⟩
    · cases hstep
  -- The counter does not wrap, so the id of the snapshot in progress stays the last one used.
  | doRetrieveSnapshot =>
    simp only [Inspection.step] at hstep
    split at hstep
    · next hretrieving =>
      cases hstep
      rw [hretrieving] at hnumber
      refine ⟨filed, cur, h.peers, ?_, h.filing.foldl_ask s.snapshotId s.peers⟩
      have hlt : s.snapshotId.toNat + 1 < 2 ^ 64 := ha
      show (s.snapshotId + 1).toNat = cur.toNat + 1
      rw [UInt64.toNat_add, show (1 : UInt64).toNat = 1 from rfl, Nat.mod_eq_of_lt hlt, hnumber]
      rfl
    · cases hstep
  | branches a =>
    simp only [Inspection.step] at hstep
    split at hstep
    · obtain ⟨c', hc, rfl⟩ := Option.map_eq_some_iff.mp hstep
      have hstep' : SnapshotStep peers.toFinset s.cluster a := h.peers ▸ ha
      exact ⟨filed, cur, h.peers, hnumber, h.filing.step hstep' hc⟩
    · cases hstep

/-- Every state of a run. -/
theorem reporting_of_run {c₀ : Cluster} (hstart : Unasked peers c₀) {as : List InspectionAction}
    (htimely : Along step Timely { cluster := c₀, peers := peers } (.doSnapshot p :: as))
    (hrun : exec step { cluster := c₀, peers := peers } (.doSnapshot p :: as) = some s) :
    p ∈ peers ∧ ∃ filed cur, Reporting peers (c₀.total peers.toFinset) filed cur s := by
  obtain ⟨m, hm, hrest⟩ := exec_cons.mp hrun
  obtain ⟨hp, hfirst⟩ := reporting_first hstart hm
  refine ⟨hp, exec_inv_along (P := fun s => ∃ filed cur,
    Reporting peers (c₀.total peers.toFinset) filed cur s) ?_ ⟨_, _, hfirst⟩ (htimely.2 m hm) hrest⟩
  rintro s a s' ⟨filed, cur, h⟩ ha hstep
  exact h.step ha hstep

/-- Three branches before the first snapshot. -/
theorem triangle_unasked : Unasked ["a", "b", "c"] triangle where
  toSettled := triangle_settled
  snapshots _ _ := rfl
  strands _ _ := rfl
  silent _ _ := rfl

/-- `"c"` sends 3 to `"b"` ahead of its Marker. In the end `"a"` and `"b"` have answered for the
first snapshot, and `"c"` is about to. -/
def firstRound : List InspectionAction :=
  handled "a" ⟨.controller "a", .acceptor⟩ ++
    .branches (.sendMoney "c" 0 [{ draw := 3 }]) :: handled "b" ⟨.peer "a" "b", .acceptor⟩ ++
    handled "c" ⟨.peer "c" "a", .opener⟩ ++ handled "a" ⟨.peer "a" "b", .opener⟩ ++
    handled "a" ⟨.peer "c" "a", .acceptor⟩ ++
    .branches (.deliver ⟨.peer "b" "c", .opener⟩) :: handled "b" ⟨.peer "b" "c", .opener⟩ ++
    handled "c" ⟨.peer "b" "c", .acceptor⟩ ++
    .doRetrieveSnapshot :: handled "a" ⟨.controller "a", .acceptor⟩ ++
    handled "b" ⟨.controller "b", .acceptor⟩ ++
    [.branches (.deliver ⟨.controller "c", .acceptor⟩)]

/-- `"c"` answers when `"a"` has taken the second snapshot. -/
def lateAnswer : List InspectionAction :=
  firstRound ++ .doSnapshot "a" :: handled "a" ⟨.controller "a", .acceptor⟩ ++
    [.branches (.runTask "c")]

end Inspection

end Cs457.Bank
