import Cs457.Bank.SnapshotSimulation
import Cs457.Bank.Money

/-!
# Bank — snapshots are consistent

What a finished snapshot reports, summed over the branches, is the money in the system. The
abstract algorithm gives the law (`GlobalSnapshot.reported_of_run`); here the two totals are
read off a cluster and the simulation is started in a settled one.

`d_money` and the recorded amounts are `uint64_t` and wrap, so the law is stated modulo
`2 ^ 64`, and exactly for a total that fits, as the controller's does: it hands each branch
its share of one `uint64_t`.
-/

namespace Cs457.Bank

open GlobalSnapshot Transition

variable {N : Finset Name} {s : UInt64} {c : Cluster} {x : State Name}

/-! ## The two totals -/

/-- A waiting task stands for a marker, never for money. -/
theorem amounts_waiting (ch : Channel) (ts : List Task) :
    amounts (ts.filterMap (waitingMarker ch)) = 0 := by
  induction ts with
  | nil => rfl
  | cons t ts ih =>
    rw [List.filterMap_cons]
    cases t with
    | marker id ci =>
      by_cases hci : ci.second = ch
      · simpa only [waitingMarker, hci, if_true, amounts] using ih
      · simpa only [waitingMarker, hci, if_false] using ih
    | _ => exact ih

/-- The money on a link is that of the Transfers in its queue. -/
theorem amounts_packets (l : List BranchMessage) : amounts (l.filterMap packet) = transfers l := by
  induction l with
  | nil => rfl
  | cons msg l ih =>
    rw [List.filterMap_cons]
    cases msg with
    | transfer a => simp only [packet, amounts, transfers, ih]
    | _ => simpa only [packet, amounts, transfers] using ih

/-- The two ends at which `q` can receive from `p`. -/
theorem linked_cases (h : Joined N c) {p q : Name} {ch : Channel} (hq : q ∈ N)
    (hl : Linked c p q ch) :
    ch = ⟨.peer p q, .acceptor⟩ ∨ ch = ⟨.peer q p, .opener⟩ := by
  obtain ⟨hhost, _, hback⟩ := h.linked_spec hq hl
  have hhost' := (h.linked_spec (h.mem_of_linked hq hl).1 hback).1
  obtain ⟨k, side⟩ := ch
  cases k with
  | controller b => cases side <;> simp_all [Channel.host, Channel.remote]
  | peer o a =>
    cases side with
    | opener =>
      simp only [Channel.host, Channel.remote, Option.some.injEq] at hhost hhost'
      rw [hhost, hhost']
      exact Or.inr rfl
    | acceptor =>
      simp only [Channel.host, Channel.remote, Option.some.injEq] at hhost hhost'
      rw [hhost, hhost']
      exact Or.inl rfl

/-- Transfers travel on links only, so the connection that is not the link has none. -/
theorem Simulates.transfers_unlinked (h : Simulates N s c x) {p q : Name} {ch ch' : Channel}
    (hq : q ∈ N) (hl : Linked c p q ch) (hhost : ch'.host = some q)
    (hhost' : ch'.remote.host = some p) (hne : ch' ≠ ch) : transfers (c.queue ch') = 0 := by
  refine transfers_eq_zero fun msg hmsg a ha => ?_
  rcases h.traffic.messages q hq ch' hhost msg hmsg with hm | ⟨_, hm⟩ | ⟨r, hr, _⟩
  · rw [ha] at hm
    exact hm
  · rw [ha] at hm
    cases hm
  · obtain ⟨_, _, hback⟩ := h.joined.linked_spec hq hr
    have hr' := (h.joined.linked_spec (h.joined.mem_of_linked hq hr).1 hback).1
    obtain rfl : p = r := Option.some.inj (hhost'.symm.trans hr')
    exact hne (Option.some.inj (hr.symm.trans hl))

/-- Both levels have the same money in all. -/
theorem Simulates.total_eq (h : Simulates N s c x) : x.total N = c.total N := by
  refine ledger_congr h.balance fun p hp q hq hpq => ?_
  obtain ⟨ch, hl⟩ := h.joined.linked hp hq hpq
  rw [h.link q hq p ch hl, linkOf, amounts_append, amounts_waiting, Nat.zero_add, amounts_packets,
    Cluster.inFlight]
  rcases linked_cases h.joined hq hl with rfl | rfl
  · rw [h.transfers_unlinked hq hl
      (show Channel.host ⟨.peer q p, .opener⟩ = some q from rfl) rfl (by simp), Nat.add_zero]
  · rw [h.transfers_unlinked hq hl
      (show Channel.host ⟨.peer p q, .acceptor⟩ = some q from rfl) rfl (by simp), Nat.zero_add]

/-- Every branch's snapshot of `s` is complete, and `msgs q` is what `to_message` returns. -/
def Reported (N : Finset Name) (s : UInt64) (c : Cluster) (msgs : Name → ReturnSnapshot) : Prop :=
  ∀ q ∈ N, ∃ sn, (c.branch q).snapshot = some sn ∧ sn.id = s ∧ sn.toMessage = .ok (msgs q)

/-- The rows of a complete snapshot, as the abstract state has them. -/
theorem Simulates.row (h : Simulates N s c x) {q : Name} {sn : Snapshot} {msg : ReturnSnapshot}
    (hq : q ∈ N) (hsn : (c.branch q).snapshot = some sn) (hid : sn.id = s)
    (hmsg : sn.toMessage = .ok msg) {p : Name} (hp : p ∈ N) (hpq : p ≠ q) :
    x.closed p q = true ∧ ∃ t : UInt64, t.toNat = x.transit p q ∧
      sn.states.lookup p = some (.completed t) := by
  obtain ⟨_, hrows⟩ := h.records q hq sn hsn hid
  obtain ⟨t, ht, hlook⟩ := hrows p hp hpq
  obtain ⟨_, _, hentries⟩ := Snapshot.toMessage_ok hmsg
  have hmem := AList.mem_lookup_iff.mp (Option.mem_def.mpr hlook)
  rw [hentries, List.mem_map] at hmem
  obtain ⟨row, _, hrow⟩ := hmem
  cases hc : x.closed p q with
  | true =>
    rw [hc, if_pos rfl] at hlook
    exact ⟨rfl, t, ht, hlook⟩
  | false =>
    rw [hc] at hrow
    simp only [Bool.false_eq_true, if_false, Sigma.mk.injEq, heq_eq_eq] at hrow
    exact absurd hrow.2 (by simp)

/-- When all branches have reported, all links are closed. -/
theorem Simulates.complete (h : Simulates N s c x) {msgs : Name → ReturnSnapshot}
    (hmsgs : Reported N s c msgs) : x.Complete N := by
  refine ⟨fun q hq => ?_, fun p hp q hq hpq => ?_⟩
  · obtain ⟨sn, hsn, hid, _⟩ := hmsgs q hq
    rw [h.recorded q hq, recordedBalance, hsn]
    simp [hid]
  · obtain ⟨sn, hsn, hid, hmsg⟩ := hmsgs q hq
    exact (h.row hq hsn hid hmsg hp hpq).1

/-- The amount of a row that is completed. -/
def settledAmount : VarState → ℕ
  | .completed t => t.toNat
  | _ => 0

/-- What the branches report is what the abstract algorithm has recorded: balances, and for each
link the money in transit. -/
theorem Simulates.reported_eq (h : Simulates N s c x) {msgs : Name → ReturnSnapshot}
    (hmsgs : Reported N s c msgs) :
    x.reported N = ∑ q ∈ N, (msgs q).localSnapshot.worth := by
  -- group the links of the ledger by the branch that recorded them
  have hgroup : x.reported N
      = ∑ q ∈ N, ((x.recorded q).getD 0 + ∑ p ∈ N.erase q, x.transit p q) := by
    rw [State.reported, ledger, Finset.sum_add_distrib]
    congr 1
    rw [Finset.sum_sigma']
    refine Finset.sum_bij' (fun e _ => ⟨e.2, e.1⟩) (fun e _ => (e.2, e.1)) ?_ ?_ ?_ ?_ ?_
    · intro e he
      obtain ⟨h1, h2, h3⟩ := Finset.mem_offDiag.mp he
      exact Finset.mem_sigma.mpr ⟨h2, Finset.mem_erase.mpr ⟨h3, h1⟩⟩
    · intro e he
      obtain ⟨h1, h2⟩ := Finset.mem_sigma.mp he
      obtain ⟨h3, h4⟩ := Finset.mem_erase.mp h2
      exact Finset.mem_offDiag.mpr ⟨h4, h1, h3⟩
    · exact fun _ _ => rfl
    · exact fun _ _ => rfl
    · exact fun _ _ => rfl
  rw [hgroup]
  refine Finset.sum_congr rfl fun q hq => ?_
  obtain ⟨sn, hsn, hid, hmsg⟩ := hmsgs q hq
  obtain ⟨hkeys, _⟩ := h.records q hq sn hsn hid
  obtain ⟨_, hbal, hentries⟩ := Snapshot.toMessage_ok hmsg
  have hrec : x.recorded q = some sn.balance.toNat := by
    rw [h.recorded q hq, recordedBalance, hsn, Option.bind_some, if_pos hid]
  have hrows : ((msgs q).localSnapshot.channelState.map fun r => r.inTransit.toNat).sum
      = ∑ p ∈ N.erase q, x.transit p q := by
    have hsum := UnorderedMap.sum_entries sn.states (N.erase q)
      (fun k => by rw [hkeys k, Finset.mem_erase, and_comm])
      (fun _ => settledAmount)
      (fun p => x.transit p q) (fun p v hv => ?_)
    · rw [← hsum, hentries, List.map_map]
      rfl
    · have hp := (hkeys p).mp (UnorderedMap.mem_iff_exists_lookup.mpr ⟨v, hv⟩)
      obtain ⟨_, t, ht, hlook⟩ := h.row hq hsn hid hmsg hp.1 hp.2
      rw [hlook, Option.some.injEq] at hv
      subst hv
      exact ht.symm
  rw [hrec, Option.getD_some, LocalSnapshot.worth, hbal, hrows]

/-! ## The start of a run -/

/-- The abstract state of a settled cluster. -/
def initial (c : Cluster) : State Name where
  balance p := (c.branch p).money.toNat
  link p q := match (c.branch q).channels.lookup p with
    | some ch => (c.queue ch).filterMap packet
    | none => []
  recorded _ := none
  transit _ _ := 0
  closed _ _ := false

/-- A settled cluster has neither a marker nor a record of the snapshot. -/
theorem Settled.initial_idle (h : Settled N c) : (initial c).Idle N where
  unrecorded _ _ := rfl
  unclosed _ _ _ _ _ := rfl
  unmarked p hp q hq hpq := by
    obtain ⟨ch, hl⟩ := h.toJoined.linked hp hq hpq
    have hhost := (h.toJoined.linked_spec hq hl).1
    have hmsgs := h.messages q hq ch hhost
    rw [Linked] at hl
    simp only [initial, hl]
    -- no message of the queue is a marker
    generalize c.queue ch = queue at hmsgs
    induction queue with
    | nil => rfl
    | cons msg l ih =>
      have htail := ih fun m hm => hmsgs m (List.mem_cons_of_mem msg hm)
      rcases hmsgs msg List.mem_cons_self with hm | ⟨_, a, _, rfl⟩
      · rw [List.filterMap_cons]
        cases msg with
        | retrieveSnapshot _ => exact htail
        | returnSnapshot _ => exact htail
        | notSet => exact htail
        | _ => exact hm.elim
      · rw [List.filterMap_cons]
        exact htail

/-- The controller asks `p` for the snapshot `s`, an id no branch's snapshot has. -/
theorem Settled.simulates (h : Settled N c) {p : Name} (hp : p ∈ N)
    (hfresh : ∀ q ∈ N, (c.branch q).snapshot.map Snapshot.id ≠ some s) :
    Simulates N s (c.send ⟨.controller p, .opener⟩ (.initSnapshot s)) (initial c) := by
  set c' := c.send ⟨.controller p, .opener⟩ (.initSnapshot s) with hc'
  have hqueue : ∀ ch, c'.queue ch
      = c.queue ch ++ if ch = ⟨.controller p, .acceptor⟩ then [.initSnapshot s] else [] := by
    intro ch
    change (if ch = ⟨.controller p, .acceptor⟩ then c.queue ch ++ [.initSnapshot s]
      else c.queue ch) = _
    split
    · rfl
    · exact (List.append_nil _).symm
  have hlinked : ∀ q r ch, Linked c' q r ch ↔ Linked c q r ch := fun _ _ _ => Iff.rfl
  have hnotask : ∀ q ∈ N, ∀ ch, (c.branch q).strand.filterMap (waitingMarker ch) = [] := by
    intro q hq ch
    rw [List.filterMap_eq_nil_iff]
    intro t ht
    obtain ⟨id, ci, rfl⟩ := h.tasks q hq t ht
    rfl
  have hinits : ∀ q ∈ N, pendingInits s c' q = if q = p then 1 else 0 := by
    intro q hq
    have h1 : (c.branch q).strand.count (.initSnapshot s) = 0 := by
      rw [List.count_eq_zero]
      intro hmem
      obtain ⟨_, _, hm⟩ := h.tasks q hq _ hmem
      cases hm
    have h2 : (c.queue ⟨.controller q, .acceptor⟩).count (.initSnapshot s) = 0 := by
      rw [List.count_eq_zero]
      intro hmem
      rcases h.messages q hq ⟨.controller q, .acceptor⟩ rfl _ hmem with hm | ⟨_, _, _, hm⟩
      · exact hm
      · cases hm
    have h3 : (c'.branch q).strand = (c.branch q).strand := rfl
    rw [pendingInits, hqueue, h3, List.count_append, h1, h2]
    by_cases hqp : q = p <;> simp [hqp]
  -- the controller's message is the only InitSnapshot
  have hsum : ∑ q ∈ N, pendingInits s c' q = 1 := by
    rw [Finset.sum_congr rfl hinits, Finset.sum_ite_eq' N p, if_pos hp]
  refine ⟨⟨h.wired, h.keys, h.peers, h.connected, h.accepted⟩, ⟨fun q hq t ht => ?_,
    fun q hq ch hch msg hmsg => ?_⟩, fun q _ => rfl, fun q hq r ch hl => ?_, fun q hq => ?_,
    fun q hq sn hsn hid => ?_, hsum.le, fun _ => h.initial_idle⟩
  · exact Or.inl (h.tasks q hq t ht)
  · rw [hqueue, List.mem_append] at hmsg
    rcases hmsg with hmsg | hmsg
    · rcases h.messages q hq ch hch msg hmsg with hm | ⟨r, a, hr, hm⟩
      · exact Or.inl hm
      · exact Or.inr (Or.inr ⟨r, hr, Or.inr ⟨a, hm⟩⟩)
    · split at hmsg
      · next heq =>
        rw [heq] at hch
        obtain rfl : p = q := Option.some.inj hch
        -- the new message
        exact Or.inr (Or.inl ⟨heq, List.mem_singleton.mp hmsg⟩)
      · cases hmsg
  · have hl' : (c.branch q).channels.lookup r = some ch := hl
    -- no link uses the controller's connection
    have hne : ch ≠ ⟨.controller p, .acceptor⟩ := by
      rintro rfl
      rcases linked_cases h.toJoined hq hl with heq | heq <;> cases heq
    have hstrand : (c'.branch q).strand = (c.branch q).strand := rfl
    simp only [initial, hl', linkOf, hstrand, hnotask q hq ch, List.nil_append, hqueue, if_neg hne,
      List.append_nil]
  · have hnone : recordedBalance s (c.branch q) = none := by
      rw [recordedBalance]
      cases hsn : (c.branch q).snapshot with
      | none => rfl
      | some sn =>
        -- an earlier snapshot has another id
        have hne : sn.id ≠ s := fun he => hfresh q hq (by rw [hsn, Option.map_some, he])
        exact if_neg hne
    exact hnone.symm
  · exact absurd (by rw [show (c.branch q).snapshot = some sn from hsn, Option.map_some, hid])
      (hfresh q hq)

/-! ## The headline -/

/-- **Snapshots are consistent.** Start in any settled cluster of branches `N` and let the
controller ask one of them for a snapshot whose id has not been used. In every state that
any interleaving of the branches' steps reaches, the money in the system is what it was; and
once every branch's snapshot is complete, the recorded balances and the amounts recorded in
transit add up to it. Both hold modulo `2 ^ 64`, and exactly when the money fits. -/
theorem snapshot_consistent {c₀ : Cluster} (hsettled : Settled N c₀) {p : Name} (hp : p ∈ N)
    (hfresh : ∀ q ∈ N, (c₀.branch q).snapshot.map Snapshot.id ≠ some s) {as : List Action}
    (hsteps : Along Cluster.step (SnapshotStep N)
      (c₀.send ⟨.controller p, .opener⟩ (.initSnapshot s)) as)
    (hrun : exec Cluster.step c₀ (.controllerSend p (.initSnapshot s) :: as) = some c) :
    (c.total N ≡ c₀.total N [MOD 2 ^ 64] ∧ (c₀.total N < 2 ^ 64 → c.total N = c₀.total N)) ∧
    ∀ msgs, Reported N s c msgs →
      ∑ q ∈ N, (msgs q).localSnapshot.worth ≡ c.total N [MOD 2 ^ 64] ∧
      (c₀.total N < 2 ^ 64 → ∑ q ∈ N, (msgs q).localSnapshot.worth = c.total N) := by
  -- The run is simulated by one of the abstract protocol, whose total and reported sums are
  -- conserved.
  obtain ⟨c₁, hc₁, hrest⟩ := exec_cons.mp hrun
  obtain rfl : c₀.send ⟨.controller p, .opener⟩ (.initSnapshot s) = c₁ := Option.some.inj hc₁
  have hstart := hsettled.simulates hp hfresh
  -- The InitSnapshot on its way carries no money.
  have htotal₀ : (initial c₀).total N = c₀.total N := by
    rw [hstart.total_eq]
    refine ledger_congr (fun _ _ => rfl) fun q _ r _ _ => ?_
    simp [Cluster.inFlight, Cluster.send, Channel.remote]
  obtain ⟨y, hy, hsim⟩ := exec_sim (fun _ _ _ _ hR hC hs => hR.step hC hs) hstart hsteps hrest
  obtain ⟨ht, hrep⟩ := reported_of_run hsettled.initial_idle hy
  rw [hsim.total_eq, htotal₀] at ht
  refine ⟨⟨ht.2, ht.eq_of_lt⟩, fun msgs hmsgs => ?_⟩
  have hworth := hrep (hsim.complete hmsgs)
  rw [hsim.reported_eq hmsgs, htotal₀] at hworth
  refine ⟨hworth.2.trans ht.2.symm, fun hlt => ?_⟩
  rw [hworth.eq_of_lt hlt, ht.eq_of_lt hlt]

/-- Two branches joined by the connection that `"a"` opened. -/
def pairCluster : Cluster where
  branch p :=
    if p = "a" then
      { name := "a", channels := AList.singleton "b" ⟨.peer "a" "b", .opener⟩
        knownPeers := [⟨"b", "", 0⟩], money := 10, handlerName := fun _ => "b", sending := true }
    else
      { name := p, channels := AList.singleton "a" ⟨.peer "a" "b", .acceptor⟩
        knownPeers := [⟨"a", "", 0⟩], money := 5, handlerName := fun _ => "a", sending := true }

/-- Two branches with one connection are settled. -/
theorem pairCluster_settled : Settled {"a", "b"} pairCluster where
  -- The connection between the two branches: `a` opened it, `b` accepted it.
  wired p hp q hq hpq := by
    simp only [Finset.mem_insert, Finset.mem_singleton] at hp hq
    rcases hp with rfl | rfl <;> rcases hq with rfl | rfl
    · exact absurd rfl hpq
    · exact ⟨⟨.peer "a" "b", .opener⟩, rfl, rfl, rfl, rfl⟩
    · exact ⟨⟨.peer "a" "b", .acceptor⟩, rfl, rfl, rfl, rfl⟩
    · exact absurd rfl hpq
  keys p hp q := by
    simp only [Finset.mem_insert, Finset.mem_singleton] at hp ⊢
    rcases hp with rfl | rfl <;> by_cases hqa : q = "a" <;> by_cases hqb : q = "b" <;>
      simp_all [pairCluster, AList.mem_keys]
  peers p hp q := by
    simp only [Finset.mem_insert, Finset.mem_singleton] at hp ⊢
    rcases hp with rfl | rfl <;> by_cases hqa : q = "a" <;> by_cases hqb : q = "b" <;>
      simp_all [pairCluster]
  connected := rfl
  accepted k hk := by cases hk
  tasks p _ t ht := by
    have hnil : (pairCluster.branch p).strand = [] := by
      simp only [pairCluster]
      split <;> rfl
    rw [hnil] at ht
    cases ht
  messages p _ ch _ msg hmsg := by cases hmsg

/-- `"b"` sends 3 before the marker of `"a"` reaches it. -/
def pairRun : List Action :=
  [ .deliver ⟨.controller "a", .acceptor⟩, .runTask "a", .sendMoney "b" 0 [{ draw := 3 }],
    .deliver ⟨.peer "a" "b", .acceptor⟩, .runTask "b", .deliver ⟨.peer "a" "b", .opener⟩,
    .deliver ⟨.peer "a" "b", .opener⟩, .runTask "a" ]

def pairReport (q : Name) : ReturnSnapshot :=
  if q = "a" then ⟨⟨7, 10, [⟨"b", 3⟩]⟩, ""⟩ else ⟨⟨7, 2, [⟨"a", 0⟩]⟩, ""⟩

theorem pairRun_reported : ∃ c,
    exec Cluster.step pairCluster (.controllerSend "a" (.initSnapshot 7) :: pairRun) = some c ∧
    Reported {"a", "b"} 7 c pairReport := by
  refine ⟨_, rfl, fun q hq => ?_⟩
  simp only [Finset.mem_insert, Finset.mem_singleton] at hq
  rcases hq with rfl | rfl <;> exact ⟨_, rfl, rfl, rfl⟩

/-- The three that `"b"` sends are recorded in transit, and the reports add up to the fifteen of the
bank. -/
theorem snapshot_consistent_pair : ∃ c,
    exec Cluster.step pairCluster (.controllerSend "a" (.initSnapshot 7) :: pairRun) = some c ∧
    Reported {"a", "b"} 7 c pairReport ∧ c.total {"a", "b"} = 15 ∧
    ∑ q ∈ {"a", "b"}, (pairReport q).localSnapshot.worth = c.total {"a", "b"} := by
  have hsteps : Along Cluster.step (SnapshotStep {"a", "b"})
      (pairCluster.send ⟨.controller "a", .opener⟩ (.initSnapshot 7)) pairRun := by decide
  have htotal : pairCluster.total {"a", "b"} = 15 := by decide
  obtain ⟨c, hrun, hreported⟩ := pairRun_reported
  obtain ⟨hsame, hworth⟩ :=
    snapshot_consistent pairCluster_settled (p := "a") (by decide) (by decide) hsteps hrun
  have hfits : pairCluster.total {"a", "b"} < 2 ^ 64 := by rw [htotal]; decide
  exact ⟨c, hrun, hreported, (hsame.2 hfits).trans htotal, (hworth _ hreported).2 hfits⟩

end Cs457.Bank
