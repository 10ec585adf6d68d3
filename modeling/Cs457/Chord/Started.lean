import Cs457.Chord.Linking

/-!
# Chord — the ring after the initialisation

The lookups are proved right on the ring of a list of nodes, whose servers have the whole tables of
`create_fing`. This module says that `init` leaves just these servers: in whatever order it goes
through the list, whatever the servers hold before and whatever other servers there are.

* **`initServer_table`** — what one initialisation does to the finger tables.
* **`find_congr`** — a lookup calls servers of the ring only.
* **`initAll_network`** — every server ends as its node of the ring, and looks up as it does there.
-/

namespace Cs457.Chord

open Clockwise

variable {digest : Digest} {r : HashRing digest}

/-- A node is its id, its address and its pointers. -/
theorem LocalNode.eq_of_pointers {n m : LocalNode} (hself : n.toNodeID = m.toNodeID)
    (htable : n.fingertable = m.fingertable) (hpredecessor : n.predecessor = m.predecessor) :
    n = m := by
  cases n
  cases m
  exact LocalNode.mk.injEq .. ▸ ⟨hself, htable, hpredecessor⟩

/-! ## The finger tables -/

/-- The server that is initialised gets the table; telling the next node who its predecessor is
changes no table. No server becomes another one. -/
theorem initServer_table {lst : List NodeID} {net net' : Network} {x : NodeID} {fing : List NodeID}
    (hfing : createFing x.id lst = some fing) (h : initServer digest lst net x = some net')
    {address : Str × Int32} {n' : LocalNode} (hn' : net' address = some n') :
    ∃ n, net address = some n ∧ n'.toNodeID = n.toNodeID ∧ n'.fingertable =
      if address = (x.ip, x.port) then (n.keepFingertable digest fing).fingertable
      else n.fingertable := by
  simp only [initServer, hfing, setFingertable, Option.bind_eq_bind, Option.bind_some,
    Option.pure_def, Option.bind_eq_some_iff, Option.some.injEq] at h
  obtain ⟨n₀, hn₀, y, -, callee, hcallee, rfl⟩ := h
  -- first the table, whichever server is asked
  have htable : ∀ {address : Str × Int32} {m : LocalNode}, Function.update net (x.ip, x.port)
      (some (n₀.keepFingertable digest fing)) address = some m → ∃ n, net address = some n ∧
        m.toNodeID = n.toNodeID ∧ m.fingertable = if address = (x.ip, x.port)
          then (n.keepFingertable digest fing).fingertable else n.fingertable := by
    intro address m hm
    by_cases ha : address = (x.ip, x.port)
    · subst ha
      rw [Function.update_self] at hm
      obtain rfl := Option.some.inj hm
      exact ⟨n₀, hn₀, rfl, by rw [if_pos rfl]⟩
    · rw [Function.update_of_ne ha] at hm
      exact ⟨m, hm, rfl, by rw [if_neg ha]⟩
  by_cases ha : address = (y.ip, y.port)
  · subst ha
    rw [Function.update_self] at hn'
    obtain rfl := Option.some.inj hn'
    obtain ⟨n, hn, hself, hcalleetable⟩ := htable hcallee
    exact ⟨n, hn, hself, hcalleetable⟩
  · rw [Function.update_of_ne ha] at hn'
    exact htable hn'

/-- The table of a node of the ring. -/
theorem fingertable_node {x : NodeID} {fing : List NodeID} (h : createFing x.id r.lst = some fing)
    (n : LocalNode) : (n.keepFingertable digest fing).fingertable = (r.node x).fingertable := by
  simp only [HashRing.node, LocalNode.keepFingertable, h, Option.getD_some]

/-- The servers of the nodes in `done` have their tables. -/
def Tabled (r : HashRing digest) (done : NodeID → Prop) (net : Network) : Prop :=
  ∀ x ∈ r.lst, done x → ∀ n, net (x.ip, x.port) = some n → n.fingertable = (r.node x).fingertable

/-- One more server has its finger table, and the others keep theirs. -/
theorem Tabled.initServer {done : NodeID → Prop} {net net' : Network} (h : Tabled r done net)
    {x : NodeID} (hx : x ∈ r.lst) (hinit : initServer digest r.lst net x = some net') :
    Tabled r (fun z => done z ∨ z = x) net' := by
  obtain ⟨fing, hfing, -⟩ := createFing_spec (HashRing.isId_id hx) r.ascending r.nonempty
  intro w hw hdone n' hn'
  obtain ⟨n, hn, -, htable⟩ := initServer_table hfing hinit hn'
  rw [htable]
  split
  · next ha =>
    rw [eq_of_address hw hx ha]
    exact fingertable_node hfing n
  · next ha => exact h w hw (hdone.resolve_right fun hwx => ha (hwx ▸ rfl)) n hn

/-- All servers, one after the other. -/
theorem Tabled.initAll {order : List NodeID} (horder : ∀ x ∈ order, x ∈ r.lst)
    {done : NodeID → Prop} {net net' : Network} (h : Tabled r done net)
    (hinit : order.foldlM (Chord.initServer digest r.lst) net = some net') :
    Tabled r (fun z => done z ∨ z ∈ order) net' := by
  induction order generalizing done net with
  | nil =>
    cases hinit
    simpa using h
  | cons x order ih =>
    rw [List.foldlM_cons] at hinit
    obtain ⟨net₁, hnet₁, hrest⟩ := Option.bind_eq_some_iff.mp hinit
    have hall := ih (fun z hz => horder z (List.mem_cons_of_mem x hz))
      (h.initServer (horder x List.mem_cons_self) hnet₁) hrest
    simpa only [List.mem_cons, or_assoc] using hall

/-- Nobody becomes another server. -/
theorem initAll_self {order : List NodeID} (horder : ∀ x ∈ order, x ∈ r.lst) {net net' : Network}
    (hinit : order.foldlM (Chord.initServer digest r.lst) net = some net') {address : Str × Int32}
    {n' : LocalNode} (hn' : net' address = some n') :
    ∃ n, net address = some n ∧ n'.toNodeID = n.toNodeID := by
  induction order generalizing net with
  | nil =>
    cases hinit
    exact ⟨n', hn', rfl⟩
  | cons x order ih =>
    rw [List.foldlM_cons] at hinit
    obtain ⟨net₁, hnet₁, hrest⟩ := Option.bind_eq_some_iff.mp hinit
    obtain ⟨n₁, hn₁, hself₁⟩ := ih (fun z hz => horder z (List.mem_cons_of_mem x hz)) hrest
    obtain ⟨fing, hfing, -⟩ :=
      createFing_spec (HashRing.isId_id (horder x List.mem_cons_self)) r.ascending r.nonempty
    obtain ⟨n, hn, hself, -⟩ := initServer_table hfing hnet₁ hn₁
    exact ⟨n, hn, hself₁.trans hself⟩

/-! ## Lookups -/

/-- **A lookup calls servers of the ring only**, so that it goes the same way wherever these are.
Induction on the number of calls. -/
theorem find_congr {net : Network} (hnet : ∀ x ∈ r.lst, net (x.ip, x.port) = some (r.node x))
    (answers : LocalNode → Str → Except Fault Bool) (text : String) (key : Str) (fuel : ℕ)
    {x : NodeID} (hx : x ∈ r.lst) :
    find answers text net fuel (r.node x) key
      = find answers text r.network fuel (r.node x) key := by
  induction fuel generalizing x with
  | zero => rfl
  | succ fuel ih =>
    have hnext := HashRing.next_mem hx key
    rw [find, find, HashRing.closestPrecedingNode_eq hx key]
    simp only [hnet _ hnext, HashRing.network_at hnext, ih hnext]

/-! ## All servers -/

/-- The servers after the initialisation, and who they are. -/
theorem initAll_nodes (digest : Digest) (nodes order : List NodeID) (net : Network)
    (hne : nodes ≠ []) (hids : ∀ x ∈ nodes, x.id = nodeId digest x.ip x.port)
    (hdistinct : (nodes.map NodeID.id).Nodup)
    (htop : ∀ x ∈ nodes, hexValue x.id ≠ 2 ^ 256 - 1) (horder : order.Perm nodes)
    (hup : ∀ x ∈ nodes, ∃ n, net (x.ip, x.port) = some n ∧ n.toNodeID = x) :
    ∃ net', initAll digest nodes order net = some net' ∧
      (∀ x ∈ nodes, net' (x.ip, x.port) = some ((ringOf hne hids hdistinct).node x)) ∧
      ∀ address n', net' address = some n' →
        ∃ n, net address = some n ∧ n'.toNodeID = n.toNodeID := by
  set r := ringOf hne hids hdistinct
  have hmem : ∀ {x}, x ∈ r.lst ↔ x ∈ nodes := mem_sortNodes
  -- Before the start no pointer is right, and the invariant asks for none.
  have hstart : Linked r (fun _ => False) (fun _ => False) net := by
    intro x hx
    obtain ⟨n, hn, hself⟩ := hup x (hmem.mp hx)
    exact ⟨n, hn, hself, fun h => h.elim, fun _ _ h => h.elim⟩
  have hnot : ∀ x ∈ order, x ∈ r.lst ∧ x.id ≠ top := by
    intro x hx
    have hxn := horder.mem_iff.mp hx
    refine ⟨hmem.mpr hxn, fun heq => htop x hxn ?_⟩
    rw [heq, hexValue_top]
    norm_num
  obtain ⟨net', hinit, hlinked⟩ := initAll_linked hnot hstart
  have htabled : Tabled r (fun z => False ∨ z ∈ order) net' :=
    Tabled.initAll (fun x hx => (hnot x hx).1) (fun _ _ h => h.elim) hinit
  -- Every node of the ring has been initialised in the end.
  have hdone : ∀ z ∈ r.lst, False ∨ z ∈ order := fun z hz =>
    Or.inr (horder.mem_iff.mpr (hmem.mp hz))
  refine ⟨net', hinit, fun x hxn => ?_,
    fun address n' hn' => initAll_self (fun x hx => (hnot x hx).1) hinit hn'⟩
  have hx := hmem.mpr hxn
  obtain ⟨n, hn, hlink⟩ := hlinked x hx
  obtain ⟨p, hp, hbefore⟩ := HashRing.exists_previous hx
  -- The predecessor of `x` sets the predecessor pointer of `x` from its own finger table.
  have hpred := hlink.predecessor p hbefore.mem (hdone p hbefore.mem)
    ((isAfter_iff_isBefore hbefore.mem hx).mpr hbefore)
  have htable := htabled x hx (hdone x hx) n hn
  rw [hn, LocalNode.eq_of_pointers (hlink.self.trans (HashRing.node_self hx).symm) htable
    (hpred.trans hp.symm)]

/-- **The initialisation makes the ring.** Whatever the servers hold before and whatever the order
in which they are initialised, each of them ends with the pointers of its node of the ring, and
every lookup at it ends as on the ring, after as many calls. A server gets its finger table from its
own call and its predecessor from that of its predecessor, which may come later. -/
theorem initAll_network (digest : Digest) (nodes order : List NodeID) (net : Network)
    (hne : nodes ≠ []) (hids : ∀ x ∈ nodes, x.id = nodeId digest x.ip x.port)
    (hdistinct : (nodes.map NodeID.id).Nodup)
    (htop : ∀ x ∈ nodes, hexValue x.id ≠ 2 ^ 256 - 1) (horder : order.Perm nodes)
    (hup : ∀ x ∈ nodes, ∃ n, net (x.ip, x.port) = some n ∧ n.toNodeID = x) :
    ∃ net', initAll digest nodes order net = some net' ∧ ∀ x ∈ nodes,
      net' (x.ip, x.port) = some ((ringOf hne hids hdistinct).node x) ∧ ∀ fuel key,
        findSuccessor net' fuel ((ringOf hne hids hdistinct).node x) key
          = findSuccessor (ringOf hne hids hdistinct).network fuel
            ((ringOf hne hids hdistinct).node x) key ∧
        findPredecessor net' fuel ((ringOf hne hids hdistinct).node x) key
          = findPredecessor (ringOf hne hids hdistinct).network fuel
            ((ringOf hne hids hdistinct).node x) key := by
  obtain ⟨net', hinit, hnodes, -⟩ :=
    initAll_nodes digest nodes order net hne hids hdistinct htop horder hup
  have hnode : ∀ x ∈ (ringOf hne hids hdistinct).lst,
      net' (x.ip, x.port) = some ((ringOf hne hids hdistinct).node x) := fun x hx =>
    hnodes x (mem_sortNodes.mp hx)
  refine ⟨net', hinit, fun x hx => ⟨hnodes x hx, fun fuel key => ?_⟩⟩
  exact ⟨find_congr hnode _ _ key fuel (mem_sortNodes.mpr hx),
    find_congr hnode _ _ key fuel (mem_sortNodes.mpr hx)⟩

/-- Two servers, the second of which is initialised first. -/
theorem initAll_network_pair : ∃ hne hids hdistinct net',
    initAll localDigest [localNode 9090, localNode 9091] [localNode 9091, localNode 9090]
      localServers = some net' ∧
    net' (str "127.0.0.1", 9090) = some ((@ringOf localDigest
      [localNode 9090, localNode 9091] hne hids hdistinct).node (localNode 9090)) := by
  have hids : ∀ x ∈ [localNode 9090, localNode 9091], x.id = nodeId localDigest x.ip x.port := by
    intro x hx
    rcases List.mem_pair.mp hx with rfl | rfl
    · rfl
    · rfl
  have hdistinct : ([localNode 9090, localNode 9091].map NodeID.id).Nodup := by decide +kernel
  obtain ⟨net', hinit, hall⟩ := initAll_network localDigest [localNode 9090, localNode 9091] _
    localServers (List.cons_ne_nil _ _) hids hdistinct (by decide +kernel)
    (List.Perm.swap (localNode 9090) (localNode 9091) []) fun x hx => by
      rcases List.mem_pair.mp hx with rfl | rfl
      · exact ⟨.create localDigest (str "127.0.0.1") 9090, by decide +kernel, rfl⟩
      · exact ⟨.create localDigest (str "127.0.0.1") 9091, by decide +kernel, rfl⟩
  exact ⟨_, hids, hdistinct, net', hinit, (hall _ List.mem_cons_self).1⟩

end Cs457.Chord
