import Cs457.Chord.Lookup
import Mathlib.Data.List.Perm.Basic
import Mathlib.Data.List.Nodup

/-!
# Chord — linking the ring

`init` gives each server its finger table, in turn; the server that gets one tells the first
node of it who its predecessor is. So the successor link of a node comes from its own
initialisation, and the predecessor link from that of the node before it.

* **`initServer_linked`** — one server is initialised.
* **`init_links`** — all of them are, in any order.
-/

namespace Cs457.Chord

open Clockwise

/-! ## The calls -/

/-- `set_predecessor`. -/
def LocalNode.setPredecessor (n : LocalNode) (node : NodeID) : LocalNode :=
  { n with predecessor := some node }

/-- `setFingertable` at an address. The call fails when no server is there, or none at the address
of the first finger, and a table without entries has no first finger; an exception ends `init`. -/
def setFingertable (digest : Digest) (net : Network) (address : Str × Int32)
    (nodeList : List NodeID) : Option Network := do
  let n ← net address
  let n := n.keepFingertable digest nodeList
  let net := Function.update net address (some n)
  let successor ← n.fingertable.head?
  let callee ← net (successor.ip, successor.port)
  return Function.update net (successor.ip, successor.port)
    (some (callee.setPredecessor n.toNodeID))

/-- `init_server`. -/
def initServer (digest : Digest) (lst : List NodeID) (net : Network) (nid : NodeID) :
    Option Network := do
  let fing ← createFing nid.id lst
  setFingertable digest net (nid.ip, nid.port) fing

/-- `sorted(.., key=lambda x:x.id)`. -/
def sortNodes (nodes : List NodeID) : List NodeID := nodes.mergeSort fun x y => x.id ≤ y.id

/-- The servers in `order`, initialised one after the other. -/
def initAll (digest : Digest) (nodes order : List NodeID) (net : Network) : Option Network :=
  order.foldlM (initServer digest (sortNodes nodes)) net

/-! ## The ring of a list of nodes -/

/-- Sorting keeps the nodes. -/
theorem mem_sortNodes {nodes : List NodeID} {x : NodeID} : x ∈ sortNodes nodes ↔ x ∈ nodes :=
  List.mem_mergeSort

/-- Pairwise distinct ids ascend when they are sorted. -/
theorem ascending_sortNodes {nodes : List NodeID} (h : (nodes.map NodeID.id).Nodup) :
    Ascending NodeID.id (sortNodes nodes) := by
  -- sorted by `≤`, and distinct, so ascending
  have hle : (sortNodes nodes).Pairwise fun x y => x.id ≤ y.id := by
    have hsorted : (sortNodes nodes).Pairwise fun x y => decide (x.id ≤ y.id) = true := by
      apply List.pairwise_mergeSort
      · exact fun a b c hab hbc =>
          decide_eq_true ((of_decide_eq_true hab).trans (of_decide_eq_true hbc))
      · exact fun a b => by simpa using le_total a.id b.id
    exact hsorted.imp of_decide_eq_true
  have hne : (sortNodes nodes).Pairwise fun x y => x.id ≠ y.id := by
    have hperm : ((sortNodes nodes).map NodeID.id).Perm (nodes.map NodeID.id) :=
      (List.mergeSort_perm nodes _).map _
    exact List.pairwise_map.mp (hperm.nodup_iff.mpr h)
  exact (hle.and hne).imp fun h => lt_of_le_of_ne h.1 h.2

/-- The ring that `init` makes of its input. -/
def ringOf {digest : Digest} {nodes : List NodeID} (hne : nodes ≠ [])
    (hids : ∀ x ∈ nodes, x.id = nodeId digest x.ip x.port)
    (hdistinct : (nodes.map NodeID.id).Nodup) :
    HashRing digest where
  lst := sortNodes nodes
  nonempty := by
    obtain ⟨x, hx⟩ := List.exists_mem_of_ne_nil nodes hne
    exact List.ne_nil_of_mem (mem_sortNodes.mpr hx)
  ascending := ascending_sortNodes hdistinct
  ids x hx := hids x (mem_sortNodes.mp hx)

/-! ## One server -/

variable {digest : Digest} {r : HashRing digest}

/-- What a server has once the nodes in `tabled` have their tables and those in `told` have told
their next nodes. -/
structure NodeLinked (r : HashRing digest) (tabled told : NodeID → Prop) (x : NodeID)
    (n : LocalNode) : Prop where
  self : n.toNodeID = x
  front : tabled x → ∃ y, n.fingertable.head? = some y ∧ IsAfter NodeID.id r.lst x.id y
  predecessor : ∀ z ∈ r.lst, told z → IsAfter NodeID.id r.lst z.id x → n.predecessor = some z

/-- **The invariant of the initialisation.** -/
def Linked (r : HashRing digest) (tabled told : NodeID → Prop) (net : Network) : Prop :=
  ∀ x ∈ r.lst, ∃ n, net (x.ip, x.port) = some n ∧ NodeLinked r tabled told x n

/-- The address determines the node. -/
theorem eq_of_address {x y : NodeID} (hx : x ∈ r.lst) (hy : y ∈ r.lst)
    (h : (x.ip, x.port) = (y.ip, y.port)) : x = y := by
  obtain ⟨hip, hport⟩ := Prod.mk.inj h
  exact r.ascending.inj hx hy (by rw [r.ids x hx, r.ids y hy, hip, hport])

/-- The first finger of a node that has not the greatest id. -/
theorem keepFingertable_front {x : NodeID} (hx : x ∈ r.lst) (htop : x.id ≠ top) :
    ∃ fing y, createFing x.id r.lst = some fing ∧ IsAfter NodeID.id r.lst x.id y ∧
      ∀ n : LocalNode, (n.keepFingertable digest fing).fingertable.head? = some y := by
  obtain ⟨fing, hfing, -⟩ := createFing_spec (HashRing.isId_id hx) r.ascending r.nonempty
  obtain ⟨y, -, hy, -⟩ := HashRing.front_finger hx
  have htable : ∀ n : LocalNode, (n.keepFingertable digest fing).fingertable
      = (r.node x).fingertable := by
    intro n
    simp only [HashRing.node, LocalNode.keepFingertable, hfing, Option.getD_some]
  refine ⟨fing, y, hfing, ?_, fun n => (htable n).symm ▸ hy⟩
  exact (HashRing.front_cases hx hy).resolve_right fun h => htop h.1

/-- The server at one address changes. -/
theorem Linked.update {tabled told tabled' told' : NodeID → Prop} {net : Network}
    (h : Linked r tabled told net) {x : NodeID} (hx : x ∈ r.lst) {n : LocalNode}
    (hn : NodeLinked r tabled' told' x n)
    (hother : ∀ w ∈ r.lst, w ≠ x → ∀ m, NodeLinked r tabled told w m →
      NodeLinked r tabled' told' w m) :
    Linked r tabled' told' (Function.update net (x.ip, x.port) (some n)) := by
  intro w hw
  by_cases hwx : w = x
  · subst hwx
    exact ⟨n, Function.update_self .., hn⟩
  · obtain ⟨m, hm, hmw⟩ := h w hw
    -- two nodes have two addresses
    have haddr : (w.ip, w.port) ≠ (x.ip, x.port) := fun heq => hwx (eq_of_address hw hx heq)
    exact ⟨m, by rw [Function.update_of_ne haddr, hm], hother w hw hwx m hmw⟩

/-- **One server is initialised.** Its own table and the predecessor of the next node are set. -/
theorem initServer_linked {done : NodeID → Prop} {net : Network} (h : Linked r done done net)
    {x : NodeID} (hx : x ∈ r.lst) (htop : x.id ≠ top) :
    ∃ net', initServer digest r.lst net x = some net' ∧
      Linked r (fun z => done z ∨ z = x) (fun z => done z ∨ z = x) net' := by
  obtain ⟨fing, y, hfing, hafter, hfront⟩ := keepFingertable_front hx htop
  obtain ⟨n, hn, hnx⟩ := h x hx
  have htabled : Linked r (fun z => done z ∨ z = x) done (Function.update net (x.ip, x.port)
      (some (n.keepFingertable digest fing))) := by
    refine h.update hx ⟨hnx.self, fun _ => ⟨y, hfront n, hafter⟩, hnx.predecessor⟩ ?_
    intro w _ hwx m hmw
    exact ⟨hmw.self, fun hdone => hmw.front (hdone.resolve_right hwx), hmw.predecessor⟩
  -- `y` is up, too: it hears from `x` who its predecessor is
  obtain ⟨callee, hcallee, hcalleey⟩ := htabled y hafter.mem
  -- only one node comes before another
  have hunique : ∀ z ∈ r.lst, IsAfter NodeID.id r.lst z.id y → z = x := fun z hz hzy =>
    ((isAfter_iff_isBefore hz hafter.mem).mp hzy).unique r.ascending
      ((isAfter_iff_isBefore hx hafter.mem).mp hafter)
  refine ⟨_, ?_, htabled.update (n := callee.setPredecessor x) hafter.mem
    ⟨hcalleey.self, hcalleey.front, fun z hz _ hzy => ?_⟩ ?_⟩
  · have hself : (n.keepFingertable digest fing).toNodeID = x := hnx.self
    simp only [initServer, setFingertable, hfing, hn, hfront n, hcallee, hself, Option.bind_eq_bind,
      Option.bind_some, Option.pure_def]
  · rw [hunique z hz hzy]
    rfl
  · intro w _ hwy m hmw
    refine ⟨hmw.self, hmw.front, fun z hz hdone hzw => ?_⟩
    rcases hdone with hdone | rfl
    · exact hmw.predecessor z hz hdone hzw
    · -- the next node of `x` is `y`
      exact absurd (hzw.unique r.ascending hafter) hwy

/-! ## All servers -/

/-- After any of the servers have been initialised their links are set, and those that are still to
come find them. -/
theorem initAll_linked {order : List NodeID} (horder : ∀ x ∈ order, x ∈ r.lst ∧ x.id ≠ top)
    {done : NodeID → Prop} {net : Network} (h : Linked r done done net) :
    ∃ net', order.foldlM (initServer digest r.lst) net = some net' ∧
      Linked r (fun z => done z ∨ z ∈ order) (fun z => done z ∨ z ∈ order) net' := by
  induction order generalizing done net with
  | nil =>
    refine ⟨net, rfl, ?_⟩
    simpa using h
  | cons x order ih =>
    obtain ⟨hx, htop⟩ := horder x List.mem_cons_self
    -- the first server, then the others by induction
    obtain ⟨net₁, hinit, hlinked⟩ := initServer_linked h hx htop
    obtain ⟨net', hrest, hall⟩ := ih (fun z hz => horder z (List.mem_cons_of_mem x hz)) hlinked
    refine ⟨net', ?_, ?_⟩
    · rw [List.foldlM_cons, hinit]
      exact hrest
    · simpa only [List.mem_cons, or_assoc] using hall

/-- **The initialisation links the ring.** Whatever the servers hold before and whatever the order
in which they are initialised, every node ends with its next node as first finger and with its
previous node as predecessor. -/
theorem init_links (digest : Digest) (nodes order : List NodeID) (net : Network)
    (hids : ∀ x ∈ nodes, x.id = nodeId digest x.ip x.port) (hdistinct : (nodes.map NodeID.id).Nodup)
    (htop : ∀ x ∈ nodes, hexValue x.id ≠ 2 ^ 256 - 1) (horder : order.Perm nodes)
    (hup : ∀ x ∈ nodes, ∃ n, net (x.ip, x.port) = some n ∧ n.toNodeID = x) :
    ∃ net', initAll digest nodes order net = some net' ∧
      ∀ x ∈ nodes, ∃ n y p, net' (x.ip, x.port) = some n ∧ n.toNodeID = x ∧
        n.fingertable.head? = some y ∧ IsAfter NodeID.id nodes x.id y ∧
        n.predecessor = some p ∧ IsBefore NodeID.id nodes x.id p := by
  -- without nodes there is nothing to do
  rcases eq_or_ne nodes [] with rfl | hne
  · rw [List.perm_nil.mp horder]
    exact ⟨net, rfl, fun x hx => (by cases hx)⟩
  set r := ringOf hne hids hdistinct with hr
  have hmem : ∀ {x}, x ∈ r.lst ↔ x ∈ nodes := mem_sortNodes
  have hstart : Linked r (fun _ => False) (fun _ => False) net := by
    intro x hx
    obtain ⟨n, hn, hself⟩ := hup x (hmem.mp hx)
    exact ⟨n, hn, hself, fun h => h.elim, fun _ _ h => h.elim⟩
  have hnot : ∀ x ∈ order, x ∈ r.lst ∧ x.id ≠ top := by
    intro x hx
    have hxn := horder.mem_iff.mp hx
    refine ⟨hmem.mpr hxn, fun heq => htop x hxn ?_⟩
    rw [heq, hexValue_top]
    norm_num
  obtain ⟨net', hinit, hlinked⟩ := initAll_linked hnot hstart
  refine ⟨net', hinit, fun x hx => ?_⟩
  have hdone : ∀ z ∈ nodes, False ∨ z ∈ order := fun z hz => Or.inr (horder.mem_iff.mpr hz)
  obtain ⟨n, hn, hself, hfront, hpred⟩ := hlinked x (hmem.mpr hx)
  obtain ⟨y, hy, hafter⟩ := hfront (hdone x hx)
  obtain ⟨p, -, hbefore⟩ := HashRing.exists_previous (hmem.mpr hx)
  have hpx : IsAfter NodeID.id r.lst p.id x :=
    (isAfter_iff_isBefore hbefore.mem (hmem.mpr hx)).mpr hbefore
  refine ⟨n, y, p, hn, hself, hy, ?_, hpred p hbefore.mem (hdone p (hmem.mp hbefore.mem)) hpx, ?_⟩
  · simpa only [IsAfter, IsFirst, hmem] using hafter
  · simpa only [IsBefore, IsLast, hmem] using hbefore

/-- Two servers that have just been started. -/
def localServers : Network := fun address =>
  if address = (str "127.0.0.1", 9090) then some (.create localDigest (str "127.0.0.1") 9090)
  else if address = (str "127.0.0.1", 9091) then some (.create localDigest (str "127.0.0.1") 9091)
  else none

/-- Two servers, of which the one that comes later in the list is initialised first. -/
theorem init_links_pair :
    ∃ net', initAll localDigest [localNode 9090, localNode 9091] [localNode 9091, localNode 9090]
        localServers = some net' ∧
      ∀ x ∈ [localNode 9090, localNode 9091], ∃ n y p,
        net' (x.ip, x.port) = some n ∧ n.toNodeID = x ∧ n.fingertable.head? = some y ∧
        IsAfter NodeID.id [localNode 9090, localNode 9091] x.id y ∧ n.predecessor = some p ∧
        IsBefore NodeID.id [localNode 9090, localNode 9091] x.id p := by
  refine init_links localDigest _ _ localServers (fun x hx => ?_) (by decide +kernel)
    (by decide +kernel) (List.Perm.swap _ _ []) fun x hx => ?_
  · rcases List.mem_pair.mp hx with rfl | rfl
    · rfl
    · rfl
  · rcases List.mem_pair.mp hx with rfl | rfl
    · exact ⟨.create localDigest (str "127.0.0.1") 9090, by decide +kernel, rfl⟩
    · exact ⟨.create localDigest (str "127.0.0.1") 9091, by decide +kernel, rfl⟩

end Cs457.Chord
