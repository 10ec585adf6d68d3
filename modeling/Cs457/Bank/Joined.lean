import Cs457.Bank.Cluster

/-!
# Bank — connected clusters

Once every branch has been initialised and every Hello processed, each pair of branches is
joined by one connection that both ends know by the other's name. `Linked c p q ch` names the
end at which `q` receives what `p` sends; the facts here say that this end determines its
link and that a broadcast reaches every link once.
-/

namespace Cs457.Bank

/-- All pairs of the branches `N` are connected, both ends know each other by name, and each
branch's list of peers is the other branches. -/
structure Joined (N : Finset Name) (c : Cluster) : Prop where
  wired : ∀ p ∈ N, ∀ q ∈ N, p ≠ q → ∃ ch, (c.branch p).channels.lookup q = some ch ∧
    ch.host = some p ∧ (c.branch p).handlerName ch = q ∧
    (c.branch q).channels.lookup p = some ch.remote
  keys : ∀ p ∈ N, ∀ q, q ∈ (c.branch p).channels ↔ q ∈ N ∧ q ≠ p
  peers : ∀ p ∈ N, ∀ q, q ∈ (c.branch p).knownPeers.map PeerInfo.name ↔ q ∈ N ∧ q ≠ p
  connected : c.connecting = []
  accepted : ∀ k ∈ c.unaccepted, ∃ p, k = .controller p

/-- `ch` is the end at `q` of the connection between `p` and `q`. -/
def Linked (c : Cluster) (p q : Name) (ch : Channel) : Prop :=
  (c.branch q).channels.lookup p = some ch

namespace Joined

variable {N : Finset Name} {c : Cluster}

/-- Any two branches are linked. -/
theorem linked (h : Joined N c) {p q : Name} (hp : p ∈ N) (hq : q ∈ N) (hpq : p ≠ q) :
    ∃ ch, Linked c p q ch :=
  let ⟨ch, hch, _⟩ := h.wired q hq p hp (Ne.symm hpq)
  ⟨ch, hch⟩

/-- A link has two different ends, both in the bank. -/
theorem mem_of_linked (h : Joined N c) {p q : Name} {ch : Channel} (hq : q ∈ N)
    (hl : Linked c p q ch) : p ∈ N ∧ p ≠ q :=
  (h.keys q hq p).mp (UnorderedMap.mem_iff_exists_lookup.mpr ⟨ch, hl⟩)

/-- The end of a link is hosted where it receives, names its source, and is the remote of
the source's own channel. -/
theorem linked_spec (h : Joined N c) {p q : Name} {ch : Channel} (hq : q ∈ N)
    (hl : Linked c p q ch) :
    ch.host = some q ∧ (c.branch q).handlerName ch = p ∧ Linked c q p ch.remote := by
  obtain ⟨hp, hpq⟩ := h.mem_of_linked hq hl
  obtain ⟨ch', hch', hhost, hname, hremote⟩ := h.wired q hq p hp (Ne.symm hpq)
  have heq : ch' = ch := Option.some.inj (hch'.symm.trans hl)
  subst heq
  exact ⟨hhost, hname, hremote⟩

/-- The source of a link is determined by its end. -/
theorem linked_unique (h : Joined N c) {p p' q q' : Name} {ch : Channel} (hq : q ∈ N)
    (hq' : q' ∈ N) (hl : Linked c p q ch) (hl' : Linked c p' q' ch) : p = p' ∧ q = q' := by
  obtain ⟨hhost, hname, _⟩ := h.linked_spec hq hl
  obtain ⟨hhost', hname', _⟩ := h.linked_spec hq' hl'
  have hqq : q = q' := Option.some.inj (hhost.symm.trans hhost')
  subst hqq
  exact ⟨hname.symm.trans hname', rfl⟩

/-- Nothing but the channels, the peers and the names bound in the handlers matters. -/
theorem congr (h : Joined N c) {c' : Cluster}
    (hchannels : ∀ p ∈ N, (c'.branch p).channels = (c.branch p).channels)
    (hpeers : ∀ p ∈ N, (c'.branch p).knownPeers = (c.branch p).knownPeers)
    (hnames : ∀ p ∈ N, ∀ q ch, Linked c q p ch →
      (c'.branch p).handlerName ch = (c.branch p).handlerName ch)
    (hconn : c'.connecting = []) (hacc : ∀ k ∈ c'.unaccepted, ∃ p, k = .controller p) :
    Joined N c' where
  wired p hp q hq hpq := by
    obtain ⟨ch, hch, hhost, hname, hremote⟩ := h.wired p hp q hq hpq
    refine ⟨ch, by rw [hchannels p hp]; exact hch, hhost, ?_, by rw [hchannels q hq]; exact hremote⟩
    rw [hnames p hp q ch hch, hname]
  keys p hp q := by rw [hchannels p hp]; exact h.keys p hp q
  peers p hp q := by rw [hpeers p hp]; exact h.peers p hp q
  connected := hconn
  accepted := hacc

/-- A branch that replaces itself by one with the same channels, peers and names. -/
theorem update (h : Joined N c) {p : Name} {r : Branch × List Effect}
    (hchannels : r.1.channels = (c.branch p).channels)
    (hpeers : r.1.knownPeers = (c.branch p).knownPeers)
    (hnames : r.1.handlerName = (c.branch p).handlerName)
    (hopened : Cluster.opened r.2 = []) : Joined N (c.update p r) := by
  refine h.congr (fun x _ => Cluster.update_field Branch.channels c hchannels x)
    (fun x _ => Cluster.update_field Branch.knownPeers c hpeers x) (fun x _ q ch _ => ?_) ?_ ?_
  · rw [Cluster.update_field Branch.handlerName c hnames]
  · rw [Cluster.update_connecting, h.connected, hopened, List.nil_append]
  · rw [Cluster.update_unaccepted]
    exact h.accepted

/-- Dropping or adding messages does not matter. -/
theorem withQueue (h : Joined N c) (queue : Channel → List BranchMessage) :
    Joined N { c with queue := queue } :=
  ⟨h.wired, h.keys, h.peers, h.connected, h.accepted⟩

/-- Only the controller's connections are still to be accepted, and no link uses them. -/
theorem accept (h : Joined N c) (p : Name) {k : Connection} (hk : k ∈ c.unaccepted) :
    Joined N { c.setBranch p ((c.branch p).doAccept ⟨k, .acceptor⟩) with
      unaccepted := c.unaccepted.erase k } := by
  obtain ⟨o, rfl⟩ := h.accepted k hk
  refine h.congr (fun r _ => Cluster.setBranch_field Branch.channels c (by rfl) r)
    (fun r _ => Cluster.setBranch_field Branch.knownPeers c (by rfl) r) (fun r hr q ch hl => ?_)
    h.connected (fun k' hk' => h.accepted k' (List.mem_of_mem_erase hk'))
  refine Cluster.setBranch_field (fun b => b.handlerName ch) c (if_neg ?_) r
  rintro rfl
  -- the other end of a link is hosted at a branch, not at the controller
  obtain ⟨_, _, hback⟩ := h.linked_spec hr hl
  have hhost := (h.linked_spec (h.mem_of_linked hr hl).1 hback).1
  cases hhost

end Joined

/-- One copy of `y` for the one entry of a list without duplicates that matches. -/
theorem filterMap_ite_unique {α β : Type*} {l : List α} (hnd : l.Nodup) {e : α} (he : e ∈ l)
    {p : α → Prop} [DecidablePred p] (hp : ∀ a ∈ l, p a ↔ a = e) (y : β) :
    l.filterMap (fun a => if p a then some y else none) = [y] := by
  induction l with
  | nil => cases he
  | cons a l ih =>
    obtain ⟨hnot, hnd'⟩ := List.nodup_cons.mp hnd
    have htail : ∀ b ∈ l, p b ↔ b = e := fun b hb => hp b (List.mem_cons_of_mem a hb)
    by_cases hae : a = e
    · subst hae
      have hnone : l.filterMap (fun a => if p a then some y else none) = [] := by
        rw [List.filterMap_eq_nil_iff]
        intro b hb
        have hne : ¬ p b := fun hpb => hnot ((htail b hb).mp hpb ▸ hb)
        exact if_neg hne
      rw [List.filterMap_cons, if_pos ((hp a List.mem_cons_self).mpr rfl)]
      simp only [hnone]
    · have hpa : ¬ p a := fun h => hae ((hp a List.mem_cons_self).mp h)
      have hel : e ∈ l := (List.mem_cons.mp he).resolve_left (fun h => hae h.symm)
      rw [List.filterMap_cons, if_neg hpa]
      exact ih hnd' hel htail

/-- **A broadcast reaches each link once.** A message sent on every channel of `q` is queued
exactly on the links that `q` is the source of. -/
theorem Joined.sentTo_broadcast {N : Finset Name} {c : Cluster} (h : Joined N c) {p q r : Name}
    {ch : Channel} (hq : q ∈ N) (hr : r ∈ N) (hl : Linked c p r ch) (msg : BranchMessage) :
    Cluster.sentTo ((c.branch q).channels.entries.map fun e => .send e.2 msg) ch
      = if p = q then [msg] else [] := by
  -- an entry of `q` reaches `ch` only when `ch` ends the link from `q`
  have hmatch : ∀ e ∈ (c.branch q).channels.entries, e.2.remote = ch → p = q ∧ e.1 = r := by
    intro e he hech
    have hle : Linked c e.1 q e.2 := UnorderedMap.lookup_of_mem_entries he
    obtain ⟨_, _, hback⟩ := h.linked_spec hq hle
    rw [hech] at hback
    obtain ⟨hqp, her⟩ := h.linked_unique (h.mem_of_linked hq hle).1 hr hback hl
    exact ⟨hqp.symm, her⟩
  have hform : Cluster.sentTo ((c.branch q).channels.entries.map fun e => .send e.2 msg) ch
      = (c.branch q).channels.entries.filterMap
          fun e => if e.2.remote = ch then some msg else none := by
    rw [Cluster.sentTo, List.filterMap_map]
    rfl
  rw [hform]
  by_cases hpq : p = q
  · subst hpq
    rw [if_pos rfl]
    obtain ⟨_, _, hback⟩ := h.linked_spec hr hl
    have hmem : (⟨r, ch.remote⟩ : Sigma fun _ : Name => Channel) ∈ (c.branch p).channels.entries :=
      AList.mem_lookup_iff.mp hback
    refine filterMap_ite_unique (List.NodupKeys.nodup (c.branch p).channels.nodupKeys) hmem
      (fun e he => ⟨fun hech => ?_, fun hee => ?_⟩) msg
    · have her := (hmatch e he hech).2
      have hle : Linked c e.1 p e.2 := UnorderedMap.lookup_of_mem_entries he
      rw [her] at hle
      have h2 : e.2 = ch.remote := Option.some.inj (hle.symm.trans hback)
      exact Sigma.ext her (heq_of_eq h2)
    · rw [hee, Channel.remote_remote]
  · rw [if_neg hpq, List.filterMap_eq_nil_iff]
    intro e he
    exact if_neg fun hech => hpq (hmatch e he hech).1

end Cs457.Bank
