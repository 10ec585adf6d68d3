import Cs457.Bank.Startup
import Cs457.Bank.Money

/-!
# Bank — the money during start-up

Every branch gets its share by an assignment to `d_money`. What has been credited to it before
is overwritten and lost to the bank; nothing else in a start-up run creates or destroys money.

* **`overwritten`** — the money a step destroys.
* **`Booting.conserves`** — the books of one step: total, loss and the shares still on the way.
* **`startup_total`** — the books of a run.
* **`startup_total_iff`** — the total is that of the shares exactly when every InitBranch meets
  an empty balance.
-/

namespace Cs457.Bank

open Branch Transition

/-- The `d_money` that the step assigns over. -/
def overwritten (c : Cluster) : Action → ℕ
  | .deliver ch => match ch.host, c.queue ch with
    | some p, .initBranch _ :: _ => (c.branch p).money.toNat
    | _, _ => 0
  | _ => 0

/-- What a run destroys. -/
def lost : Cluster → List Action → ℕ
  | _, [] => 0
  | c, a :: as => overwritten c a + match c.step a with
    | some c' => lost c' as
    | none => 0

/-- The branches of the controller's list. -/
def roster (msg : InitBranch) : Finset Name := msg.names.toFinset

/-- The InitBranch messages that have not been handled. -/
def waiting (msg : InitBranch) (c : Cluster) : ℕ := ∑ p ∈ roster msg, waitingInits msg c p

section Books

variable {msg : InitBranch} {c c' : Cluster}

/-- The total depends on the balances and on the Transfers in the queues. -/
theorem total_congr {N : Finset Name} (hmoney : ∀ p, (c'.branch p).money = (c.branch p).money)
    (hqueue : ∀ ch, transfers (c'.queue ch) = transfers (c.queue ch)) :
    c'.total N = c.total N := by
  refine ledger_congr (fun p _ => by rw [hmoney p]) fun p _ q _ _ => ?_
  rw [Cluster.inFlight, Cluster.inFlight, hqueue, hqueue]

/-- The link on which the end `ch` receives, in terms of the two possible ends. -/
theorem LinkSound.cases {p q : Name} {ch : Channel} (h : LinkSound msg p q ch) :
    ch = ⟨.peer q p, .acceptor⟩ ∨ ch = ⟨.peer p q, .opener⟩ := by
  rcases h with ⟨_, rfl⟩ | ⟨_, rfl⟩
  · exact Or.inr rfl
  · exact Or.inl rfl

/-- Both ends of a link are on the roster. -/
theorem LinkSound.mem (hnd : msg.names.Nodup) {p q : Name} {ch : Channel}
    (h : LinkSound msg p q ch) : p ∈ roster msg ∧ q ∈ roster msg ∧ q ≠ p := by
  rw [roster, List.mem_toFinset, List.mem_toFinset]
  rcases h with ⟨ho, _⟩ | ⟨ho, _⟩
  · obtain ⟨hp, hq, hne⟩ := ho.mem hnd
    exact ⟨hp, hq, hne.symm⟩
  · obtain ⟨hq, hp, hne⟩ := ho.mem hnd
    exact ⟨hp, hq, hne⟩

/-- Money moves between the balance of `x` and the end `ch` of the link from `q` to `p`. -/
theorem total_move (hnd : msg.names.Nodup) {p q x : Name} {ch : Channel}
    (hl : LinkSound msg p q ch) (hx : x ∈ roster msg)
    (hmoney : ∀ y, y ≠ x → (c'.branch y).money = (c.branch y).money)
    (hqueue : ∀ ch', ch' ≠ ch → transfers (c'.queue ch') = transfers (c.queue ch'))
    (hmove : WrapLe (2 ^ 64) ((c'.branch x).money.toNat + transfers (c'.queue ch))
      ((c.branch x).money.toNat + transfers (c.queue ch))) :
    WrapLe (2 ^ 64) (c'.total (roster msg)) (c.total (roster msg)) := by
  obtain ⟨hp, hq, hqp⟩ := hl.mem hnd
  refine ledger_move hx hq hp hqp (fun y _ hy => by rw [hmoney y hy])
    (fun y _ z _ hyz => ?_) ?_
  · -- the ends of another link are not `ch`
    have hne : (⟨.peer y z, .acceptor⟩ : Channel) ≠ ch ∧ (⟨.peer z y, .opener⟩ : Channel) ≠ ch := by
      rcases hl.cases with rfl | rfl
      · refine ⟨fun heq => hyz ?_, fun heq => (by cases heq)⟩
        cases heq
        exact ⟨rfl, rfl⟩
      · refine ⟨fun heq => (by cases heq), fun heq => hyz ?_⟩
        cases heq
        exact ⟨rfl, rfl⟩
    rw [Cluster.inFlight, Cluster.inFlight, hqueue _ hne.1, hqueue _ hne.2]
  · rcases hl.cases with rfl | rfl
    · rw [Cluster.inFlight, Cluster.inFlight, hqueue ⟨.peer p q, .opener⟩ (by simp),
        ← Nat.add_assoc, ← Nat.add_assoc]
      exact hmove.add (WrapLe.refl _ _)
    · rw [Cluster.inFlight, Cluster.inFlight, hqueue ⟨.peer q p, .acceptor⟩ (by simp),
        Nat.add_left_comm, Nat.add_left_comm (c.branch x).money.toNat]
      exact (WrapLe.refl _ _).add hmove

/-! ## One step -/

/-- The transfers of a queue after its head is taken off. -/
theorem transfers_pop {ch : Channel} {m : BranchMessage} {rest : List BranchMessage}
    (hqueue : c.queue ch = m :: rest) (hm : ∀ a, m ≠ .transfer a) (ch' : Channel) :
    transfers (if ch' = ch then rest else c.queue ch') = transfers (c.queue ch') := by
  split
  · next heq =>
    rw [heq, hqueue]
    cases m with
    | transfer a => exact absurd rfl (hm a)
    | _ => rfl
  · rfl

/-- Nothing but a Transfer changes what is on the way. -/
theorem transfers_update {p : Name} {r : Branch × List Effect}
    (hsent : ∀ ch, ∀ m ∈ Cluster.sentTo r.2 ch, ∀ a, m ≠ .transfer a) (ch : Channel) :
    transfers ((c.update p r).queue ch) = transfers (c.queue ch) := by
  rw [Cluster.update_queue, transfers_append, transfers_eq_zero (hsent ch), Nat.add_zero]

/-- The InitBranches that wait are counted branch by branch. -/
theorem waiting_congr (h : ∀ p, waitingInits msg c' p = waitingInits msg c p) :
    waiting msg c' = waiting msg c :=
  Finset.sum_congr rfl fun p _ => h p

/-- One branch is replaced by one with the same balance and no message moves. -/
theorem books_setBranch {p : Name} {b : Branch} (hmoney : b.money = (c.branch p).money)
    (hbranch : c'.branch = (c.setBranch p b).branch) (hqueue : c'.queue = c.queue) :
    c'.total (roster msg) = c.total (roster msg) ∧ waiting msg c' = waiting msg c := by
  refine ⟨total_congr (fun q => ?_) (fun ch => by rw [hqueue]),
    waiting_congr fun q => by rw [waitingInits, waitingInits, hqueue]⟩
  rw [hbranch]
  exact Cluster.setBranch_field Branch.money c hmoney q

/-- A branch is initialised: its balance is replaced and one message fewer is waiting. -/
theorem Booting.conserves_init (h : Booting msg c) (hnd : msg.names.Nodup) {p : Name}
    {ch : Channel} {m : InitBranch} {rest : List BranchMessage} {r : Branch × List Effect}
    (hhost : ch.host = some p) (hqueue : c.queue ch = .initBranch m :: rest)
    (hr : (c.branch p).initBranchHandler m = .ok r)
    (hc' : c' = ({ c with queue := fun x => if x = ch then rest else c.queue x } : Cluster).update
      p r) :
    c'.total (roster msg) + (c.branch p).money.toNat
        = c.total (roster msg) + msg.balance.toNat ∧
      waiting msg c' + 1 = waiting msg c := by
  obtain ⟨rfl, q, hq, rfl⟩ := h.messages ch _ (hqueue ▸ List.mem_cons_self)
  obtain rfl : q = p := Option.some.inj hhost
  obtain ⟨_, _, _, hmoney, hsent⟩ := initBranchHandler_keeps hr
  set c₁ : Cluster := { c with
    queue := fun x => if x = ⟨.controller q, .acceptor⟩ then rest else c.queue x } with hc₁
  have hqueue' : ∀ ch, c'.queue ch
      = if ch = ⟨.controller q, .acceptor⟩ then rest else c.queue ch := by
    intro ch
    rw [hc', Cluster.update_queue, hsent, List.append_nil]
  have hqr : q ∈ roster m := List.mem_toFinset.mpr hq
  constructor
  · have hset : c'.total (roster m) + (c.branch q).money.toNat
        = c.total (roster m) + (c'.branch q).money.toNat := by
      refine ledger_set (f := fun x => (c.branch x).money.toNat) hqr (fun y _ hy => ?_)
        fun x _ y _ _ => ?_
      · rw [hc', Cluster.update_ne c₁ r hy]
      · rw [Cluster.inFlight, Cluster.inFlight, hqueue', hqueue', if_neg (by simp),
          if_neg (by simp)]
    rw [hset, hc', Cluster.update_self, hmoney]
  · -- one message fewer waits for `q`
    have hself : waitingInits m c' q + 1 = waitingInits m c q := by
      rw [waitingInits, waitingInits, hqueue', if_pos rfl, hqueue, List.count_cons_self]
    have hothers : ∀ x ∈ (roster m).erase q, waitingInits m c' x = waitingInits m c x := by
      intro x hx
      have hne := Finset.ne_of_mem_erase hx
      rw [waitingInits, waitingInits, hqueue', if_neg (by simpa using hne)]
    rw [waiting, waiting, ← Finset.add_sum_erase _ _ hqr, ← Finset.add_sum_erase _ _ hqr,
      Finset.sum_congr rfl hothers, Nat.add_right_comm, hself]

/-- A Transfer is handled: it moves from its link to the balance. -/
theorem Booting.conserves_transfer (h : Booting msg c) (hnd : msg.names.Nodup) {p : Name}
    {ch : Channel} {a : UInt64} {rest : List BranchMessage} {r : Branch × List Effect}
    (hhost : ch.host = some p) (hqueue : c.queue ch = .transfer a :: rest)
    (heffects : r.2 = []) (hmoney : r.1.money = (c.branch p).money + a)
    (hc' : c' = ({ c with queue := fun x => if x = ch then rest else c.queue x } : Cluster).update
      p r) : WrapLe (2 ^ 64) (c'.total (roster msg)) (c.total (roster msg)) := by
  obtain ⟨p', q, hl⟩ := h.messages ch _ (hqueue ▸ List.mem_cons_self)
  obtain rfl : p' = p := Option.some.inj (hl.host.symm.trans hhost)
  set c₁ : Cluster := { c with queue := fun x => if x = ch then rest else c.queue x } with hc₁
  have hqueue' : ∀ ch', c'.queue ch' = if ch' = ch then rest else c.queue ch' := by
    intro ch'
    rw [hc', Cluster.update_queue, heffects, Cluster.sentTo, List.filterMap_nil, List.append_nil]
  refine total_move hnd hl (hl.mem hnd).1 (fun y hy => ?_) (fun ch' hch' => ?_) ?_
  · rw [hc', Cluster.update_ne c₁ r hy]
  · rw [hqueue', if_neg hch']
  · rw [hqueue', if_pos rfl, hqueue, hc', Cluster.update_self, hmoney, UInt64.toNat_add, transfers,
      ← Nat.add_assoc]
    exact (WrapLe.mod _ _).add (WrapLe.refl _ _)

/-- The timer fires: what leaves the balance is on its link. -/
theorem Booting.conserves_sendMoney (h : Booting msg c) (hnd : msg.names.Nodup) {p : Name} {i : ℕ}
    {attempts : List Attempt} (hc : c.sendMoney p i attempts = some c') :
    WrapLe (2 ^ 64) (c'.total (roster msg)) (c.total (roster msg)) := by
  obtain ⟨e, toSend, he, hle, rfl⟩ := Cluster.sendMoney_eq_some hc
  have hl := h.channels p e.1 e.2 (UnorderedMap.lookup_of_mem_entries he)
  -- What the amount sent adds to each channel: only the far end of the chosen one gains.
  have hsent : ∀ ch, transfers (Cluster.sentTo
      (if toSend > 0 then [.send e.2 (.transfer toSend)] else []) ch)
        = if ch = e.2.remote then toSend.toNat else 0 := by
    intro ch
    by_cases hpos : toSend > 0
    · by_cases hch : ch = e.2.remote
      · simp [Cluster.sentTo, hpos, hch, transfers]
      · have hch' : e.2.remote ≠ ch := fun heq => hch heq.symm
        simp [Cluster.sentTo, hpos, hch, hch', transfers]
    · have hzero : toSend = 0 := by
        rw [gt_iff_lt, UInt64.not_lt] at hpos
        exact UInt64.le_antisymm hpos UInt64.zero_le
      simp [Cluster.sentTo, hzero, transfers]
  refine total_move hnd hl.remote (hl.mem hnd).1 (fun y hy => ?_) (fun ch' hch' => ?_) ?_
  · rw [Cluster.update_ne c _ hy]
  · rw [Cluster.update_queue, transfers_append, hsent, if_neg hch', Nat.add_zero]
  · rw [Cluster.update_self, Cluster.update_queue, transfers_append, hsent, if_pos rfl]
    refine WrapLe.of_eq ?_
    rw [UInt64.toNat_sub_of_le _ _ hle]
    have := UInt64.le_iff_toNat_le.mp hle
    omega

/-- A delivery keeps the money of the bank together with what the waiting branches are still to get,
but for what an InitBranch overwrites. -/
theorem Booting.conserves_deliver (h : Booting msg c) (hnd : msg.names.Nodup)
    (hcap : c.total (roster msg) < 2 ^ 64) {ch : Channel} (hc : c.deliver ch = some c') :
    c'.total (roster msg) + overwritten c (.deliver ch) + msg.balance.toNat * waiting msg c'
      = c.total (roster msg) + msg.balance.toNat * waiting msg c := by
  obtain ⟨p, m, rest, r, hhost, hqueue, _, hr, hc'⟩ := Cluster.deliver_eq_some hc
  rcases messageHandler_ok hr with ⟨m, rfl, hinit⟩ | ⟨hne, heffects, _, _, _, _, hmoney⟩
  · obtain ⟨htotal, hwait⟩ := h.conserves_init hnd hhost hqueue hinit hc'
    rw [← hwait, Nat.mul_add, Nat.mul_one]
    simp only [overwritten, hhost, hqueue]
    omega
  · -- only InitBranch overwrites a balance
    have hover : overwritten c (.deliver ch) = 0 := by
      simp only [overwritten, hhost, hqueue]
      split
      · next heq =>
        cases heq
        exact absurd rfl (hne _)
      · rfl
    have hwait : waiting msg c' = waiting msg c := by
      refine waiting_congr fun x => ?_
      rw [hc', waitingInits_update (fun ch hmem => by rw [heffects] at hmem; cases hmem),
        waitingInits_pop hqueue (hne msg)]
    rw [hover, hwait, Nat.add_zero]
    congr 1
    by_cases htransfer : ∃ a, m = .transfer a
    · obtain ⟨a, rfl⟩ := htransfer
      exact (h.conserves_transfer hnd hhost hqueue heffects hmoney hc').eq_of_lt hcap
    · have hm : ∀ a, m ≠ .transfer a := fun a ha => htransfer ⟨a, ha⟩
      have hzero : credited m = 0 := by
        cases m with
        | transfer a => exact absurd rfl (hm a)
        | _ => rfl
      subst hc'
      refine total_congr (fun x => ?_) fun ch' => ?_
      · refine Cluster.update_field Branch.money { c with queue := _ } ?_ x
        rw [hmoney, hzero, UInt64.add_zero]
      · rw [transfers_update (fun _ m hm => by rw [heffects] at hm; cases hm),
          transfers_pop hqueue hm]

/-- **The books of one step.** What the step destroys is the only difference between the
money before and after it, the shares that have not been handed out included. -/
theorem Booting.conserves (h : Booting msg c) (hnd : msg.names.Nodup) {a : Action}
    (hcap : c.total (roster msg) < 2 ^ 64) (hC : StartupStep c a) (hc : c.step a = some c') :
    c'.total (roster msg) + overwritten c a + msg.balance.toNat * waiting msg c'
      = c.total (roster msg) + msg.balance.toNat * waiting msg c := by
  cases a with
  | deliver ch => exact h.conserves_deliver hnd hcap hc
  | controllerSend p m =>
    -- the controller sends no second InitBranch and no Transfer
    have hm : m ≠ .initBranch msg ∧ ∀ a, m ≠ .transfer a := by
      cases m with
      | initSnapshot id => exact ⟨by simp, by simp⟩
      | retrieveSnapshot id => exact ⟨by simp, by simp⟩
      | _ => exact hC.elim
    obtain rfl := Option.some.inj hc
    have hwait : waiting msg (c.send ⟨.controller p, .opener⟩ m) = waiting msg c := by
      refine waiting_congr fun x => ?_
      simp only [waitingInits, Cluster.send]
      split
      · rw [List.count_append, List.count_cons_of_ne hm.1, List.count_nil, Nat.add_zero]
      · rfl
    have htotal : (c.send ⟨.controller p, .opener⟩ m).total (roster msg)
      = c.total (roster msg) := by
      refine total_congr (fun _ => rfl) fun ch => ?_
      simp only [Cluster.send]
      split
      · rw [transfers_append,
          transfers_eq_zero (fun m' hm' => List.mem_singleton.mp hm' ▸ hm.2), Nat.add_zero]
      · rfl
    rw [htotal, hwait]
    rfl
  | connect peer ch =>
    obtain ⟨p, _, _, hc'⟩ := Cluster.connect_eq_some hc
    have hmoney : ((c.branch p).post (.connected peer.name ch)).money = (c.branch p).money := rfl
    obtain ⟨htotal, hwait⟩ : c'.total (roster msg) = c.total (roster msg) ∧
        waiting msg c' = waiting msg c := books_setBranch hmoney (by rw [hc']) (by rw [hc']; rfl)
    rw [htotal, hwait]
    rfl
  | accept p k =>
    obtain ⟨_, _, hc'⟩ := Cluster.accept_eq_some hc
    have hmoney : ((c.branch p).doAccept ⟨k, .acceptor⟩).money = (c.branch p).money := rfl
    obtain ⟨htotal, hwait⟩ : c'.total (roster msg) = c.total (roster msg) ∧
        waiting msg c' = waiting msg c := books_setBranch hmoney (by rw [hc']) (by rw [hc']; rfl)
    rw [htotal, hwait]
    rfl
  | runTask p =>
    obtain ⟨t, rest, r, _, hr, rfl⟩ := Cluster.runTask_eq_some hc
    obtain ⟨_, _, hmoney, _, _, _, hsent⟩ := perform_ok hr
    -- the tasks send Hello, Marker and ReturnSnapshot only
    have hwait : waiting msg (c.update p r) = waiting msg c := by
      refine waiting_congr (waitingInits_update fun ch hmem => ?_)
      rcases hsent ch _ hmem with ⟨_, hm⟩ | ⟨_, hm⟩ | ⟨_, _, _, _, hm⟩ <;> cases hm
    have htotal : (c.update p r).total (roster msg) = c.total (roster msg) := by
      refine total_congr (Cluster.update_field Branch.money _ hmoney)
        (transfers_update fun ch m hm a ha => ?_)
      subst ha
      rcases hsent ch _ hm with ⟨_, hm⟩ | ⟨_, hm⟩ | ⟨_, _, _, _, hm⟩ <;> cases hm
    rw [htotal, hwait]
    rfl
  | sendMoney p i attempts =>
    have htotal := (h.conserves_sendMoney hnd hc).eq_of_lt hcap
    obtain ⟨e, toSend, _, _, rfl⟩ := Cluster.sendMoney_eq_some hc
    rw [htotal, waiting_congr (waitingInits_update fun ch hm => by cases (sent_by_timer hm).2)]
    rfl

/-! ## Runs -/

/-- The books of a run. Induction on the run; the shares that are handed out and those on
their way fit in a word together, so no addition wraps. -/
theorem Booting.conserves_run {as : List Action} (hnd : msg.names.Nodup) (h : Booting msg c)
    (hcap : c.total (roster msg) + msg.balance.toNat * waiting msg c < 2 ^ 64)
    (hsteps : Along Cluster.step StartupStep c as) (hrun : exec Cluster.step c as = some c') :
    c'.total (roster msg) + lost c as + msg.balance.toNat * waiting msg c'
      = c.total (roster msg) + msg.balance.toNat * waiting msg c := by
  induction as generalizing c with
  | nil =>
    obtain rfl := Option.some.inj hrun
    simp [lost]
  | cons a as ih =>
    obtain ⟨m, hm, hrest⟩ := exec_cons.mp hrun
    have hstep := h.conserves hnd (by omega) hsteps.1 hm
    have htail := ih (h.step hnd hsteps.1 hm) (by omega) (hsteps.2 m hm) hrest
    simp only [lost, hm]
    omega

end Books

/-- The step does not hand a branch its share when it already holds money. -/
def InitsAtZero (c : Cluster) : Action → Prop
  | .deliver ch => ∀ p m rest, ch.host = some p → c.queue ch = .initBranch m :: rest →
      (c.branch p).money = 0
  | _ => True

/-- Nothing is overwritten when a branch that gets its InitBranch has no money. -/
theorem overwritten_eq_zero {c : Cluster} {a : Action} :
    overwritten c a = 0 ↔ InitsAtZero c a := by
  cases a with
  | deliver ch =>
    simp only [overwritten, InitsAtZero]
    constructor
    · intro h p m rest hhost hqueue
      rw [hhost, hqueue] at h
      exact UInt64.toNat_inj.mp h
    · intro h
      split
      · next p m rest hhost hqueue =>
        rw [h p m rest hhost hqueue]
        rfl
      · rfl
  | _ => simp [overwritten, InitsAtZero]

instance (c : Cluster) : DecidablePred (InitsAtZero c) := fun _ =>
  decidable_of_iff _ overwritten_eq_zero

/-- A run loses nothing exactly when no step of it does. -/
theorem lost_eq_zero {c c' : Cluster} {as : List Action} (hrun : exec Cluster.step c as = some c') :
    lost c as = 0 ↔ Along Cluster.step InitsAtZero c as := by
  induction as generalizing c with
  | nil => simp [lost, Along]
  | cons a as ih =>
    obtain ⟨m, hm, hrest⟩ := exec_cons.mp hrun
    have htail := ih hrest
    simp only [lost, hm, Along, Nat.add_eq_zero_iff, overwritten_eq_zero, htail,
      Option.some.injEq, forall_eq']

/-! ## The controller's books -/

namespace Controller

variable {ctl : Controller} {msg : InitBranch}

/-- What `do_init_branches` sends: all branches of the list, and an equal share for each. -/
theorem of_doInitBranches (h : ctl.doInitBranches = some msg) :
    msg.allBranches = ctl.peers.map (fun peer => ⟨peer.name, peer.ip, peer.port.toUInt64⟩) ∧
      msg.balance = UInt64.ofNat (ctl.balance.toNat / ctl.peers.length) := by
  unfold doInitBranches at h
  split at h
  · cases h
  · obtain rfl := Option.some.inj h
    exact ⟨rfl, rfl⟩

/-- The names of the InitBranch are those of the list. -/
theorem names_doInitBranches (h : ctl.doInitBranches = some msg) :
    msg.names = ctl.peers.map PeerInfo.name := by
  rw [InitBranch.names, (of_doInitBranches h).1, List.map_map]
  rfl

/-- The share of a branch is the integer quotient. -/
theorem share_doInitBranches (h : ctl.doInitBranches = some msg) :
    msg.balance.toNat = ctl.balance.toNat / ctl.peers.length := by
  have hlt : ctl.balance.toNat / ctl.peers.length < 2 ^ 64 :=
    (Nat.div_le_self _ _).trans_lt ctl.balance.toNat_lt
  rw [(of_doInitBranches h).2]
  exact UInt64.toNat_ofNat_of_lt' hlt

end Controller

/-- At the start every branch is waiting and nobody holds money. -/
theorem starting_books {msg : InitBranch} (hnd : msg.names.Nodup) :
    (Cluster.starting msg).total (roster msg) = 0 ∧
      waiting msg (Cluster.starting msg) = msg.names.length := by
  constructor
  · refine Nat.add_eq_zero_iff.mpr ⟨Finset.sum_eq_zero fun p _ => rfl,
      Finset.sum_eq_zero fun e _ => rfl⟩
  · have hone : ∀ p ∈ roster msg, waitingInits msg (Cluster.starting msg) p = 1 := by
      intro p hp
      simp [waitingInits, Cluster.starting, List.mem_toFinset.mp hp]
    rw [waiting, Finset.sum_congr rfl hone, ← Finset.card_eq_sum_ones, roster,
      List.toFinset_card_of_nodup hnd]

/-- **The books of a start-up run.** When every branch has handled its InitBranch, the money
in the system and what was overwritten add up to the shares. -/
theorem startup_total {ctl : Controller} {msg : InitBranch}
    (hmsg : ctl.doInitBranches = some msg) (hnd : (ctl.peers.map PeerInfo.name).Nodup)
    {as : List Action} {c : Cluster}
    (hsteps : Along Cluster.step StartupStep (Cluster.starting msg) as)
    (hrun : exec Cluster.step (Cluster.starting msg) as = some c)
    (hall : ∀ p ∈ ctl.peers.map PeerInfo.name,
      .initBranch msg ∉ c.queue ⟨.controller p, .acceptor⟩) :
    c.total (roster msg) + lost (Cluster.starting msg) as
      = ctl.peers.length * (ctl.balance.toNat / ctl.peers.length) := by
  have hnames := Controller.names_doInitBranches hmsg
  rw [← hnames] at hnd hall
  obtain ⟨htotal, hwait⟩ := starting_books hnd
  have hlen : msg.names.length = ctl.peers.length := by
    rw [hnames, List.length_map]
  -- At the start every share is still in an InitBranch on its way.
  have hshares : (Cluster.starting msg).total (roster msg)
      + msg.balance.toNat * waiting msg (Cluster.starting msg)
      = ctl.peers.length * (ctl.balance.toNat / ctl.peers.length) := by
    rw [htotal, hwait, hlen, Controller.share_doInitBranches hmsg, Nat.zero_add, Nat.mul_comm]
  have hcap : ctl.peers.length * (ctl.balance.toNat / ctl.peers.length) < 2 ^ 64 :=
    (Nat.mul_div_le _ _).trans_lt ctl.balance.toNat_lt
  have hbooks := (Booting.starting _).conserves_run hnd (by rw [hshares]; exact hcap) hsteps hrun
  -- At the end none is left.
  have hdone : waiting msg c = 0 :=
    Finset.sum_eq_zero fun p hp => List.count_eq_zero.mpr (hall p (List.mem_toFinset.mp hp))
  rw [hshares, hdone, Nat.mul_zero, Nat.add_zero] at hbooks
  exact hbooks

/-- **When no money is lost at start-up.** In every state of a start-up run in which all
branches have handled their InitBranch, the balances and the Transfers on the way add up to
the shares exactly when each InitBranch of the run met a branch without money. -/
theorem startup_total_iff {ctl : Controller} {msg : InitBranch}
    (hmsg : ctl.doInitBranches = some msg) (hnd : (ctl.peers.map PeerInfo.name).Nodup)
    {as : List Action} {c : Cluster}
    (hsteps : Along Cluster.step StartupStep (Cluster.starting msg) as)
    (hrun : exec Cluster.step (Cluster.starting msg) as = some c)
    (hall : ∀ p ∈ ctl.peers.map PeerInfo.name,
      .initBranch msg ∉ c.queue ⟨.controller p, .acceptor⟩) :
    c.total (roster msg) = ctl.peers.length * (ctl.balance.toNat / ctl.peers.length) ↔
      Along Cluster.step InitsAtZero (Cluster.starting msg) as := by
  rw [← lost_eq_zero hrun, ← startup_total hmsg hnd hsteps hrun hall]
  omega

/-- Two branches share 200. -/
def bankOfTwo : Controller := ⟨[⟨"a", "", 1⟩, ⟨"b", "", 2⟩], 200⟩

/-- Two branches that get their InitBranch before anybody sends them money have the two shares. -/
theorem startup_total_iff_two : ∃ msg c, bankOfTwo.doInitBranches = some msg ∧
    exec Cluster.step (Cluster.starting msg) twoBranchesRun = some c ∧
    c.total (roster msg) = 2 * (200 / 2) := by
  have hmsg : bankOfTwo.doInitBranches = some ⟨100, [⟨"a", "", 1⟩, ⟨"b", "", 2⟩]⟩ := rfl
  have hsteps : Along Cluster.step StartupStep
      (Cluster.starting ⟨100, [⟨"a", "", 1⟩, ⟨"b", "", 2⟩]⟩) twoBranchesRun := by decide
  have hrun : ∃ c, exec Cluster.step (Cluster.starting ⟨100, [⟨"a", "", 1⟩, ⟨"b", "", 2⟩]⟩)
      twoBranchesRun = some c ∧ ∀ p ∈ bankOfTwo.peers.map PeerInfo.name,
        .initBranch ⟨100, [⟨"a", "", 1⟩, ⟨"b", "", 2⟩]⟩ ∉ c.queue ⟨.controller p, .acceptor⟩ :=
    ⟨_, rfl, by decide⟩
  obtain ⟨c, hc, hall⟩ := hrun
  exact ⟨_, c, hmsg, hc, (startup_total_iff hmsg (by decide) hsteps hc hall).mpr (by decide)⟩

/-- `"a"` is initialised, connects and sends 3, which `"b"` handles before its InitBranch. -/
def earlyTransferRun : List Action :=
  [ .accept "a" (.controller "a"), .deliver ⟨.controller "a", .acceptor⟩,
    .connect ⟨"b", "", 2⟩ ⟨.peer "a" "b", .opener⟩, .runTask "a", .accept "b" (.peer "a" "b"),
    .deliver ⟨.peer "a" "b", .acceptor⟩, .runTask "b", .sendMoney "a" 0 [{ draw := 3 }],
    .deliver ⟨.peer "a" "b", .acceptor⟩, .accept "b" (.controller "b"),
    .deliver ⟨.controller "b", .acceptor⟩ ]

/-- The 3 that `"b"` was credited are gone. -/
theorem early_transfer_lost : ∃ msg c, bankOfTwo.doInitBranches = some msg ∧
    Along Cluster.step StartupStep (Cluster.starting msg) earlyTransferRun ∧
    exec Cluster.step (Cluster.starting msg) earlyTransferRun = some c ∧
    (∀ p ∈ bankOfTwo.peers.map PeerInfo.name,
      .initBranch msg ∉ c.queue ⟨.controller p, .acceptor⟩) ∧
    c.total (roster msg) = 197 ∧ c.total (roster msg) ≠ 2 * (200 / 2) :=
  ⟨⟨100, [⟨"a", "", 1⟩, ⟨"b", "", 2⟩]⟩, _, rfl, by decide, rfl, by decide, by decide, by decide⟩

end Cs457.Bank
