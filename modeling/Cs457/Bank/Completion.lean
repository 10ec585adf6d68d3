import Cs457.Bank.Consistency

/-!
# Bank — snapshots finish

No InitSnapshot and no Marker gets lost, so a snapshot that has been started is complete as soon as
none of them is on its way. A complete snapshot no longer changes, and the cluster is settled again:
the next snapshot can start.

* **`Cleared`** — nothing of a snapshot is on its way.
* **`Taking`** — a run since the controller has asked for a snapshot.
* **`Taking.step`** — a step of such a run.
* **`Taking.reported`** — then every branch has completed it.
-/

namespace Cs457.Bank

open GlobalSnapshot Transition

variable {N : Finset Name} {s : UInt64} {c c' : Cluster} {x : State Name} {T : ℕ}

/-! ## The InitSnapshot -/

/-- An InitSnapshot is pending when it is on its way or waits in the strand. -/
theorem pendingInits_ne_zero {p : Name} : pendingInits s c p ≠ 0 ↔
    .initSnapshot s ∈ c.queue ⟨.controller p, .acceptor⟩ ∨
      .initSnapshot s ∈ (c.branch p).strand := by
  rw [pendingInits, Ne, Nat.add_eq_zero_iff, List.count_eq_zero, List.count_eq_zero]
  tauto

/-- A message that is handled: no branch that has joined reads an InitBranch. -/
theorem Simulates.delivered (h : Simulates N s c x) {ch : Channel}
    (hstep : SnapshotStep N c (.deliver ch)) (hc : c.deliver ch = some c') :
    ∃ p msg rest r, p ∈ N ∧ ch.host = some p ∧ c.queue ch = msg :: rest ∧
      (∀ m, msg ≠ .initBranch m) ∧
      (c.branch p).messageHandler msg ⟨(c.branch p).handlerName ch, ch⟩ = .ok r ∧ r.2 = [] ∧
      r.1.strand = (c.branch p).strand ++ Branch.posted msg ⟨(c.branch p).handlerName ch, ch⟩ ∧
      c' =
        ({ c with queue := fun y => if y = ch then rest else c.queue y } : Cluster).update p r := by
  obtain ⟨p, hp, hhost, _⟩ := hstep
  obtain ⟨p', msg, rest, r, hhost', hqueue, _, hr, rfl⟩ := Cluster.deliver_eq_some hc
  obtain rfl : p' = p := Option.some.inj (hhost'.symm.trans hhost)
  have hok := h.traffic.messages p' hp ch hhost msg (by rw [hqueue]; exact List.mem_cons_self)
  obtain ⟨m, rfl, _⟩ | ⟨hmsg, hsent, _, _, _, hstrand, _⟩ := Branch.messageHandler_ok hr
  · rcases hok with hm | ⟨_, hm⟩ | ⟨_, _, hm | ⟨_, hm⟩⟩
    · exact hm.elim
    all_goals cases hm
  exact ⟨p', msg, rest, r, hp, hhost, hqueue, hmsg, hr, hsent, hstrand, rfl⟩

/-- An InitSnapshot that is on its way stays so until its branch takes the snapshot. -/
theorem Simulates.inits_step (h : Simulates N s c x) {a : Action} (hstep : SnapshotStep N c a)
    (hc : c.step a = some c') {p : Name} (hpending : pendingInits s c p ≠ 0) :
    pendingInits s c' p ≠ 0 ∨ (recordedBalance s (c'.branch p)).isSome := by
  rw [pendingInits_ne_zero] at hpending ⊢
  cases a with
  | controllerSend q msg => exact hstep.elim
  | connect peer ch =>
    obtain ⟨q, _, hmem, _⟩ := Cluster.connect_eq_some hc
    rw [h.joined.connected] at hmem
    cases hmem
  | accept q k =>
    obtain ⟨_, _, rfl⟩ := Cluster.accept_eq_some hc
    have hstrand : ∀ r, ((c.setBranch q ((c.branch q).doAccept ⟨k, .acceptor⟩)).branch r).strand
        = (c.branch r).strand := Cluster.setBranch_field Branch.strand c rfl
    exact Or.inl (hpending.imp id fun hmem => hstrand p ▸ hmem)
  | sendMoney q i attempts =>
    obtain ⟨e, toSend, _, _, rfl⟩ := Cluster.sendMoney_eq_some hc
    rw [Cluster.update_queue, Cluster.update_field Branch.strand c rfl]
    exact Or.inl (hpending.imp (List.mem_append_left _) id)
  | deliver ch =>
    obtain ⟨q', msg, rest, r, hq, hhost, hqueue, _, hr, hsent, hstrand, rfl⟩ :=
      h.delivered hstep hc
    refine Or.inl ?_
    rw [Cluster.update_queue, hsent]
    rcases hpending with hmem | hmem
    · by_cases hch : (⟨.controller p, .acceptor⟩ : Channel) = ch
      · -- it is read, or one before it is
        obtain rfl : p = q' := Option.some.inj ((congrArg Channel.host hch).trans hhost)
        rw [hch, hqueue] at hmem
        rcases List.mem_cons.mp hmem with rfl | hmem
        · rw [Cluster.update_self, hstrand]
          exact Or.inr (List.mem_append_right _ List.mem_cons_self)
        · refine Or.inl (List.mem_append_left _ ?_)
          show _ ∈ if _ then _ else _
          rw [if_pos hch]
          exact hmem
      · refine Or.inl (List.mem_append_left _ ?_)
        show _ ∈ if _ then _ else _
        rw [if_neg hch]
        exact hmem
    · refine Or.inr ?_
      by_cases hpq : p = q'
      · subst hpq
        rw [Cluster.update_self, hstrand]
        exact List.mem_append_left _ hmem
      · rw [Cluster.update_ne _ _ hpq]
        exact hmem
  | runTask q =>
    obtain ⟨t, rest, r, hstrand, hr, rfl⟩ := Cluster.runTask_eq_some hc
    rw [Cluster.update_queue]
    rcases hpending with hmem | hmem
    · exact Or.inl (Or.inl (List.mem_append_left _ hmem))
    · by_cases hpq : p = q
      · subst hpq
        rw [Cluster.update_self]
        rw [hstrand] at hmem
        rcases List.mem_cons.mp hmem with rfl | hmem
        · cases hr
          refine Or.inr ?_
          rw [recordedBalance, Branch.initSnapshotTask, Branch.startSnapshot, Option.bind_some,
            Snapshot.create_id, if_pos rfl]
          rfl
        · obtain ⟨_, _, _, hrest, _⟩ := Branch.perform_ok hr
          rw [hrest]
          exact Or.inl (Or.inr hmem)
      · rw [Cluster.update_ne _ _ hpq]
        exact Or.inl (Or.inr hmem)

/-- Transfers and harmless messages are no markers. -/
theorem markers_packets {l : List BranchMessage}
    (h : ∀ msg ∈ l, Harmless msg ∨ ∃ a, msg = .transfer a) : markers (l.filterMap packet) = 0 := by
  induction l with
  | nil => rfl
  | cons msg l ih =>
    have htail := ih fun m hm => h m (List.mem_cons_of_mem msg hm)
    rw [List.filterMap_cons]
    rcases h msg List.mem_cons_self with hm | ⟨a, rfl⟩
    · cases msg <;> first | exact htail | exact hm.elim
    · exact htail

/-! ## What is on its way -/

def BranchMessage.startsOrMarks : BranchMessage → Bool
  | .initSnapshot _ | .marker _ => true
  | _ => false

def Task.startsOrMarks : Task → Bool
  | .initSnapshot _ | .marker _ _ => true
  | _ => false

/-- No InitSnapshot and no Marker is on its way to a branch, and none has been read whose task is
still waiting. -/
def Cleared (N : Finset Name) (c : Cluster) : Prop :=
  ∀ p ∈ N, (∀ t ∈ (c.branch p).strand, t.startsOrMarks = false) ∧
    ∀ ch ∈ ⟨.controller p, .acceptor⟩ :: (c.branch p).channels.entries.map Sigma.snd,
      ∀ msg ∈ c.queue ch, msg.startsOrMarks = false

instance (N : Finset Name) (c : Cluster) : Decidable (Cleared N c) :=
  inferInstanceAs (Decidable (∀ p ∈ N, _ ∧ _))

/-- While a snapshot is taken, that is all there can be. -/
theorem Simulates.quiet (h : Simulates N s c x) (hcleared : Cleared N c) : Quiet N c where
  tasks p hp t ht := by
    have hnone := (hcleared p hp).1 t ht
    rcases h.traffic.tasks p hp t ht with hretrieve | rfl | ⟨_, _, _, rfl⟩
    · exact hretrieve
    · cases hnone
    · cases hnone
  messages p hp ch hch msg hmsg := by
    rcases h.traffic.messages p hp ch hch msg hmsg with hm | ⟨rfl, rfl⟩ | ⟨q, hl, rfl | ⟨a, rfl⟩⟩
    · exact Or.inl hm
    · have hnone := (hcleared p hp).2 _ List.mem_cons_self _ hmsg
      cases hnone
    · have hentry : (⟨q, ch⟩ : Sigma fun _ : Name => Channel) ∈ (c.branch p).channels.entries :=
        AList.mem_lookup_iff.mp hl
      have hnone := (hcleared p hp).2 ch
        (List.mem_cons_of_mem _ (List.mem_map.mpr ⟨_, hentry, rfl⟩)) _ hmsg
      cases hnone
    · exact Or.inr ⟨q, a, hl, rfl⟩

/-! ## A snapshot under way -/

/-- The controller has asked for the snapshot `s` while the money in the system was `T`, up to
wraps, and the branches have been at it since. -/
structure Taking (N : Finset Name) (T : ℕ) (s : UInt64) (c : Cluster) (x : State Name) : Prop where
  simulates : Simulates N s c x
  run : ∃ x₀ : State Name, x₀.Idle N ∧ Relation.ReflTransGen (Step N (2 ^ 64)) x₀ x ∧
    WrapLe (2 ^ 64) (x₀.total N) T
  begun : (∃ p ∈ N, pendingInits s c p ≠ 0) ∨ ∃ p ∈ N, (x.recorded p).isSome

namespace Taking

theorem disciplined (h : Taking N T s c x) : Disciplined x N := by
  obtain ⟨x₀, hidle, hrun, _⟩ := h.run
  exact (run_keeps hidle.disciplined hrun).1

/-- The money of the bank while a snapshot is taken, modulo `2 ^ 64`. -/
theorem total (h : Taking N T s c x) : WrapLe (2 ^ 64) (c.total N) T := by
  obtain ⟨x₀, hidle, hrun, hT⟩ := h.run
  rw [← h.simulates.total_eq]
  exact (run_keeps hidle.disciplined hrun).2.1.trans hT

/-- The start: the controller asks `p`. -/
theorem start (hsettled : Settled N c) {p : Name} (hp : p ∈ N)
    (hfresh : ∀ q ∈ N, (c.branch q).snapshot.map Snapshot.id ≠ some s)
    (hT : WrapLe (2 ^ 64) (c.total N) T) :
    Taking N T s (c.send ⟨.controller p, .opener⟩ (.initSnapshot s)) (initial c) := by
  have hsim := hsettled.simulates hp hfresh
  refine ⟨hsim, ⟨initial c, hsettled.initial_idle, .refl, ?_⟩, Or.inl ⟨p, hp, ?_⟩⟩
  · -- an InitSnapshot carries no money
    have htotal : (initial c).total N = c.total N := by
      rw [hsim.total_eq]
      refine ledger_congr (fun _ _ => rfl) fun q _ r _ _ => ?_
      simp [Cluster.inFlight, Cluster.send, Channel.remote]
    exact htotal ▸ hT
  · rw [pendingInits_ne_zero]
    refine Or.inl ?_
    have hremote : (⟨.controller p, .opener⟩ : Channel).remote = ⟨.controller p, .acceptor⟩ := rfl
    show _ ∈ if _ then _ else _
    rw [hremote, if_pos rfl]
    exact List.mem_append_right _ List.mem_cons_self

/-- A step of the branches. -/
theorem step (h : Taking N T s c x) {a : Action} (hstep : SnapshotStep N c a)
    (hc : c.step a = some c') : ∃ y, Taking N T s c' y := by
  obtain ⟨y, hy, hsim⟩ := h.simulates.step hstep hc
  obtain ⟨x₀, hidle, hrun, hT⟩ := h.run
  refine ⟨y, hsim, ⟨x₀, hidle, hrun.trans hy, hT⟩, ?_⟩
  rcases h.begun with ⟨p, hp, hpending⟩ | ⟨p, hp, hrec⟩
  · rcases h.simulates.inits_step hstep hc hpending with hpending' | hrec
    · exact Or.inl ⟨p, hp, hpending'⟩
    · exact Or.inr ⟨p, hp, by rw [hsim.recorded p hp]; exact hrec⟩
  · exact Or.inr ⟨p, hp, by rw [recorded_of_run hy hrec]; exact hrec⟩

/-! ## Completion -/

/-- When nothing is on its way, the snapshot is complete. -/
theorem complete (h : Taking N T s c x) (hcleared : Cleared N c) : x.Complete N := by
  have hquiet := h.simulates.quiet hcleared
  have hnone : ∀ p ∈ N, pendingInits s c p = 0 := by
    intro p hp
    by_contra hne
    rcases pendingInits_ne_zero.mp hne with hmem | hmem
    · rcases hquiet.messages p hp _ rfl _ hmem with hm | ⟨_, _, _, hm⟩
      · exact hm
      · cases hm
    · obtain ⟨_, _, hm⟩ := hquiet.tasks p hp _ hmem
      cases hm
  rcases h.begun with ⟨p, hp, hpending⟩ | ⟨p, hp, hrec⟩
  · exact absurd (hnone p hp) hpending
  · refine h.disciplined.complete (fun r hr q hq hrq => ?_) hp hrec
    obtain ⟨ch, hl⟩ := h.simulates.joined.linked hr hq hrq
    have hhost := (h.simulates.joined.linked_spec hq hl).1
    rw [h.simulates.link q hq r ch hl, linkOf]
    -- neither a task nor a message stands for a marker
    have htasks : (c.branch q).strand.filterMap (waitingMarker ch) = [] := by
      rw [List.filterMap_eq_nil_iff]
      intro t ht
      obtain ⟨id, ci, rfl⟩ := hquiet.tasks q hq t ht
      rfl
    rw [htasks, List.nil_append]
    refine markers_packets fun msg hmsg => ?_
    rcases hquiet.messages q hq ch hhost msg hmsg with hm | ⟨_, a, _, hm⟩
    · exact Or.inl hm
    · exact Or.inr ⟨a, hm⟩

end Taking

/-- The branches' snapshots are complete when the abstract one is. -/
theorem Simulates.reported (h : Simulates N s c x) (hcomplete : x.Complete N) :
    ∃ msgs, Reported N s c msgs := by
  have hone : ∀ q ∈ N, ∃ msg : ReturnSnapshot, ∃ sn, (c.branch q).snapshot = some sn ∧
      sn.id = s ∧ sn.toMessage = .ok msg := by
    intro q hq
    -- The abstract state has recorded `q`, so the branch holds a snapshot with the id `s`.
    have hrec := hcomplete.1 q hq
    rw [h.recorded q hq, recordedBalance] at hrec
    cases hsn : (c.branch q).snapshot with
    | none =>
      rw [hsn] at hrec
      cases hrec
    | some sn =>
      rw [hsn, Option.bind_some] at hrec
      split at hrec
      · next hid =>
        obtain ⟨hkeys, hrows⟩ := h.records q hq sn hsn hid
        -- Every row is `completed`, which is what `toMessage` asks for.
        have hmsg : ∃ msg, sn.toMessage = .ok msg := by
          rw [Snapshot.exists_toMessage_iff]
          intro k v hv
          obtain ⟨hk, hkq⟩ := (hkeys k).mp (UnorderedMap.mem_iff_exists_lookup.mpr ⟨v, hv⟩)
          obtain ⟨t, _, hlook⟩ := hrows k hk hkq
          rw [hcomplete.2 k hk q hq hkq, if_pos rfl, hv, Option.some.injEq] at hlook
          exact ⟨t, hlook⟩
        obtain ⟨msg, hmsg⟩ := hmsg
        exact ⟨msg, sn, rfl, hid, hmsg⟩
      · cases hrec
  have : Nonempty ReturnSnapshot := ⟨⟨⟨0, 0, []⟩, ""⟩⟩
  choose! msgs hmsgs using hone
  exact ⟨msgs, hmsgs⟩

/-- **A snapshot finishes.** When no InitSnapshot and no Marker is on its way, every branch has
completed it, and the cluster is ready for the next one. -/
theorem Taking.reported (h : Taking N T s c x) (hcleared : Cleared N c) :
    Settled N c ∧ ∃ msgs, Reported N s c msgs :=
  ⟨⟨h.simulates.joined, h.simulates.quiet hcleared⟩,
    h.simulates.reported (h.complete hcleared)⟩

/-- What the branches report is the money in the system when the snapshot was started. -/
theorem Taking.worth (h : Taking N T s c x) {msgs : Name → ReturnSnapshot}
    (hmsgs : Reported N s c msgs) :
    WrapLe (2 ^ 64) (∑ q ∈ N, (msgs q).localSnapshot.worth) T := by
  obtain ⟨x₀, hidle, hrun, hT⟩ := h.run
  rw [← h.simulates.reported_eq hmsgs]
  exact ((reported_of_run hidle hrun).2 (h.simulates.complete hmsgs)).trans hT

end Cs457.Bank
