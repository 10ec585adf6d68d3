import Cs457.Chord.Init
import Cs457.Chord.Ownership
import Cs457.Lib.Routing
import Mathlib.Data.Finset.Card

/-!
# Chord — lookups

A ring as `init` leaves it: every node has the finger table of `create_fing` and its clockwise
previous node as predecessor. A lookup is forwarded from node to node; on the circle each hop
goes clockwise towards the key and does not pass it, so the chain ends unless a node hands the
request to itself or, when a node has the key as its id, the request goes round.

* **`find_eq_route`** — the calls of a lookup are a chain of `Routing`.
* **`HashRing.front_cases`** — the first finger of a node is its next node; it is not when the
  id is the greatest one there can be.
* **`lookup_iff`** — the keys for which all lookups end at the right nodes.
-/

namespace Cs457.Chord

open Clockwise Routing

/-- A ring of servers, each with the id of its address. -/
structure HashRing (digest : Digest) extends Ring where
  ids : ∀ x ∈ lst, x.id = nodeId digest x.ip x.port

namespace HashRing

variable {digest : Digest} (r : HashRing digest)

/-- The server of a node after the initialisation. -/
def node (x : NodeID) : LocalNode :=
  { LocalNode.create digest x.ip x.port with predecessor := r.previous x }.keepFingertable digest
    ((createFing x.id r.lst).getD [])

def network : Network := fun address =>
  (r.lst.find? fun x => (x.ip, x.port) = address).map r.node

/-! ## The pointers of a node -/

variable {r} {x : NodeID} (hx : x ∈ r.lst)

include hx

theorem isId_id : IsId x.id := by
  rw [r.ids x hx]
  exact isId_sha256 digest _

theorem node_self : (r.node x).toNodeID = x := by
  cases x with
  | mk id ip port => exact congrArg (NodeID.mk · ip port) (r.ids _ hx).symm

/-- The network has each node at its address. -/
theorem network_at : r.network (x.ip, x.port) = some (r.node x) := by
  have hsome : (r.lst.find? fun y => (y.ip, y.port) = (x.ip, x.port)).isSome := by
    rw [List.find?_isSome]
    exact ⟨x, hx, by simp⟩
  obtain ⟨y, hy⟩ := Option.isSome_iff_exists.mp hsome
  have haddr : (y.ip, y.port) = (x.ip, x.port) := by simpa using List.find?_some hy
  obtain ⟨hip, hport⟩ := Prod.mk.inj haddr
  have hyl := List.mem_of_find?_eq_some hy
  -- the address determines the id, and the id the node
  have heq : y = x := r.ascending.inj hyl hx (by rw [r.ids y hyl, r.ids x hx, hip, hport])
  rw [network, hy, heq, Option.map_some]

/-- The fingers are nodes of the ring, so computing their ids again changes nothing. -/
theorem fingertable_spec : List.Forall₂ (fun add y => ∃ k, IsId k ∧
    hexValue k = (hexValue x.id + hexValue add) % 2 ^ 256 ∧ IsFinger r.lst k y)
    addends (r.node x).fingertable := by
  obtain ⟨fing, hfing, hall⟩ := createFing_spec (isId_id hx) r.ascending r.nonempty
  have hmem : ∀ y ∈ fing, y ∈ r.lst := by
    intro y hy
    obtain ⟨i, hi, rfl⟩ := List.getElem_of_mem hy
    obtain ⟨k, _, _, hfinger⟩ := (List.forall₂_iff_get.mp hall).2 i
      (by rw [(List.forall₂_iff_get.mp hall).1]; exact hi) hi
    exact hfinger.mem
  have hkeep : (r.node x).fingertable = fing := by
    rw [node, LocalNode.keepFingertable, hfing, Option.getD_some]
    refine (List.map_congr_left fun y hy => ?_).trans (List.map_id fing)
    rw [← r.ids y (hmem y hy), id]
  rw [hkeep]
  exact hall

/-- An entry of a finger table is the finger of some id. -/
theorem finger_of_mem {y : NodeID} (hy : y ∈ (r.node x).fingertable) :
    ∃ k, IsId k ∧ IsFinger r.lst k y := by
  obtain ⟨i, hi, rfl⟩ := List.getElem_of_mem hy
  have hall := List.forall₂_iff_get.mp (fingertable_spec hx)
  obtain ⟨k, hk, _, hfinger⟩ := hall.2 i (by rw [hall.1]; exact hi) hi
  exact ⟨k, hk, hfinger⟩

/-- The first finger starts right behind the node. -/
theorem front_finger : ∃ y k, (r.node x).fingertable.head? = some y ∧ IsId k ∧
    hexValue k = (hexValue x.id + 1) % 2 ^ 256 ∧ IsFinger r.lst k y := by
  have hall := fingertable_spec hx
  obtain ⟨add, rest, haddends, hone⟩ := head_addends
  rw [haddends] at hall
  cases hfing : (r.node x).fingertable with
  | nil =>
    rw [hfing] at hall
    cases hall
  | cons y ys =>
    rw [hfing] at hall
    obtain ⟨⟨k, hk, hval, hfinger⟩, _⟩ := List.forall₂_cons.mp hall
    exact ⟨y, k, rfl, hk, hone ▸ hval, hfinger⟩

omit hx in
theorem mem_iff_head_or_tail {l : List NodeID} {y : NodeID} :
    y ∈ l ↔ l.head? = some y ∨ y ∈ l.tail := by
  cases l with
  | nil => simp
  | cons a t => simp [eq_comm]

/-- **The first finger is the next node**, except that of a node with the greatest id there
can be: its start wraps to 0, and the search does not look at the first node. -/
theorem front_cases {y : NodeID} (hy : (r.node x).fingertable.head? = some y) :
    IsAfter NodeID.id r.lst x.id y ∨
      (x.id = top ∧ y ∈ r.lst.tail ∧ ∀ z ∈ r.lst.tail, y.id ≤ z.id) := by
  obtain ⟨y', k, hy', hk, hval, hfinger⟩ := front_finger hx
  obtain rfl := Option.some.inj (hy.symm.trans hy')
  have hlt := (isId_id hx).value_lt
  rw [show (16 : ℕ) ^ 64 = 2 ^ 256 by norm_num] at hlt
  rcases Nat.lt_or_eq_of_le hlt with hsucc | hwrap
  · -- the start is the point right behind the node
    rw [Nat.mod_eq_of_lt hsucc] at hval
    have hstart : ∀ z ∈ r.lst, k ≤ z.id ↔ x.id < z.id := fun z hz => by
      rw [hk.le_iff (isId_id hz), (isId_id hx).lt_iff (isId_id hz), hval]
      rfl
    refine Or.inl ?_
    rcases hfinger with ⟨hyt, hky, hmin⟩ | ⟨hbelow, hhead⟩
    · have hyl := List.mem_of_mem_tail hyt
      refine Or.inl ⟨hyl, (hstart y hyl).mp hky, fun z hz hxz => ?_⟩
      rcases mem_iff_head_or_tail.mp hz with hhead | hzt
      · exact absurd ((r.ascending.isFirst_head hhead).2 x hx) (not_le.mpr hxz)
      · exact hmin z hzt ((hstart z hz).mpr hxz)
    · have hfirst := r.ascending.isFirst_head hhead
      refine Or.inr ⟨fun z hz => ?_, hfirst⟩
      rcases mem_iff_head_or_tail.mp hz with hz' | hzt
      · rw [Option.some.inj (hz'.symm.trans hhead)]
        exact hfirst.2 x hx
      · exact not_lt.mp fun hxz => absurd ((hstart z hz).mpr hxz) (not_le.mpr (hbelow z hzt))
  · rw [← Nat.succ_eq_add_one, hwrap, Nat.mod_self] at hval
    have hzero : ∀ z ∈ r.lst, k ≤ z.id := fun z hz => by
      rw [hk.le_iff (isId_id hz), hval]
      exact Nat.zero_le _
    have htop : x.id = top := by
      refine le_antisymm (isId_id hx).le_top ?_
      rw [isId_top.le_iff (isId_id hx), hexValue_top, show (16 : ℕ) ^ 64 = 2 ^ 256 by norm_num]
      omega
    rcases hfinger with ⟨hyt, _, hmin⟩ | ⟨hbelow, hhead⟩
    · exact Or.inr ⟨htop, hyt, fun z hz => hmin z hz (hzero z (List.mem_of_mem_tail hz))⟩
    · refine Or.inl (Or.inr ⟨fun z hz => ?_, r.ascending.isFirst_head hhead⟩)
      rw [htop]
      exact (isId_id hz).le_top

/-- In a ring with the greatest id, the first node is nobody's finger. -/
theorem finger_ne_first {m a y : NodeID} (hm : m ∈ r.lst) (htop : m.id = top) (hne : m ≠ a)
    (ha : r.lst.head? = some a) (hy : y ∈ (r.node x).fingertable) : y ≠ a := by
  obtain ⟨k, hk, ⟨hyt, _, _⟩ | ⟨hbelow, _⟩⟩ := finger_of_mem hx hy
  · rintro rfl
    obtain ⟨t, ht⟩ := List.head?_eq_some_iff.mp ha
    have hasc := r.ascending
    rw [ht] at hasc hyt
    exact absurd (List.rel_of_pairwise_cons hasc hyt) (lt_irrefl _)
  · have hmt : m ∈ r.lst.tail := (mem_iff_head_or_tail.mp hm).resolve_left fun h =>
      hne (Option.some.inj (h.symm.trans ha))
    exact absurd (hbelow m hmt) (not_lt.mpr (htop ▸ hk.le_top))

/-! ## A lookup as a chain of calls -/

/-- Where a node hands a request for `key`. -/
def next (r : HashRing digest) (key : Str) (x : NodeID) : NodeID :=
  ((r.node x).closestPrecedingNode key).getD x

/-- The next hop on the ring is `closest_preceding_node`. -/
theorem closestPrecedingNode_eq (key : Str) :
    (r.node x).closestPrecedingNode key = some (r.next key x) := by
  obtain ⟨y, k, hy, _⟩ := front_finger hx
  have hsome : ((r.node x).closestPrecedingNode key).isSome := by
    rw [LocalNode.closestPrecedingNode, hy, Option.isSome_or]
    simp
  obtain ⟨z, hz⟩ := Option.isSome_iff_exists.mp hsome
  rw [next, hz, Option.getD_some]

/-- **One hop.** To a finger between the node and the key, or, when there is none, to the
first finger. -/
theorem next_cases (key : Str) :
    (r.next key x ∈ (r.node x).fingertable ∧ idBetween x.id (r.next key x).id key = true) ∨
      ((r.node x).fingertable.head? = some (r.next key x) ∧
        ∀ y ∈ (r.node x).fingertable, idBetween x.id y.id key = false) := by
  have hid : (r.node x).id = x.id := congrArg NodeID.id (node_self hx)
  have hnext := closestPrecedingNode_eq hx key
  rw [LocalNode.closestPrecedingNode, hid] at hnext
  rcases Option.or_eq_some_iff.mp hnext with hfind | ⟨hnone, hhead⟩
  · have hbetween := List.find?_some hfind
    exact Or.inl ⟨List.mem_reverse.mp (List.mem_of_find?_eq_some hfind), hbetween⟩
  · refine Or.inr ⟨hhead, fun y hy => ?_⟩
    exact Bool.not_eq_true _ ▸ List.find?_eq_none.mp hnone y (List.mem_reverse.mpr hy)

/-- A hop stays on the ring. -/
theorem next_mem (key : Str) : r.next key x ∈ r.lst := by
  have hfinger : r.next key x ∈ (r.node x).fingertable :=
    (next_cases hx key).elim And.left fun h => List.mem_of_mem_head? h.1
  obtain ⟨k, _, hk⟩ := finger_of_mem hx hfinger
  exact hk.mem

omit hx in
/-- **The calls of a lookup are a chain.** Induction on the number of calls. -/
theorem find_eq_route {answers : LocalNode → Str → Except Fault Bool} {key : Str}
    {b : NodeID → Bool} (hb : ∀ x ∈ r.lst, answers (r.node x) key = .ok (b x)) (text : String)
    (fuel : ℕ) {x : NodeID} (hx : x ∈ r.lst) :
    find answers text r.network fuel (r.node x) key = (route b (r.next key) fuel x).map .ok := by
  induction fuel generalizing x with
  | zero => rfl
  | succ fuel ih =>
    rw [find, hb x hx, route]
    cases b x with
    | true => simp [node_self hx]
    | false =>
      simp only [closestPrecedingNode_eq hx, network_at (next_mem hx key), ih (next_mem hx key)]
      simp

/-- The answer of `is_successor`. -/
def succ (r : HashRing digest) (key : Str) (x : NodeID) : Bool :=
  idBetween ((r.previous x).getD x).id key x.id

/-- The answer of `is_predecessor`. -/
def pred (r : HashRing digest) (key : Str) (x : NodeID) : Bool :=
  idBetween x.id key ((r.node x).fingertable.head?.getD x).id

/-- Every node has a previous one. -/
theorem exists_previous : ∃ p, r.previous x = some p ∧ IsBefore NodeID.id r.lst x.id p := by
  obtain ⟨p, hp⟩ := exists_before (f := NodeID.id) (List.ne_nil_of_mem hx) x.id
  exact ⟨p, hp, (before_eq_some_iff r.ascending).mp hp⟩

/-- `is_successor` is decided by the ids on the ring. -/
theorem isSuccessor_eq (key : Str) : (r.node x).isSuccessor key = .ok (r.succ key x) := by
  obtain ⟨p, hp, _⟩ := exists_previous hx
  have hid : (r.node x).id = x.id := congrArg NodeID.id (node_self hx)
  have hpred : (r.node x).predecessor = some p := hp
  simp only [LocalNode.isSuccessor, hpred, hid, succ, hp, Option.getD_some]

/-- So is `is_predecessor`. -/
theorem isPredecessor_eq (key : Str) : (r.node x).isPredecessor key = .ok (r.pred key x) := by
  obtain ⟨y, k, hy, _⟩ := front_finger hx
  have hid : (r.node x).id = x.id := congrArg NodeID.id (node_self hx)
  simp only [LocalNode.isPredecessor, hy, hid, pred, Option.getD_some]

/-! ## Right lookups -/

/-- Both lookups of `key` at `x` end, at the owner of the key and at the node before it. -/
def RightAt (r : HashRing digest) (key : Str) (x : NodeID) : Prop :=
  ∃ o p, r.owner key = some o ∧ r.previous o = some p ∧
    (∃ fuel, findSuccessor r.network fuel (r.node x) key = some (.ok o)) ∧
    ∃ fuel, findPredecessor r.network fuel (r.node x) key = some (.ok p)

/-- A lookup is right when its routes end at the owner of the key and at the node before it. -/
theorem rightAt_iff (key : Str) : RightAt r key x ↔ ∃ o p, r.owner key = some o ∧
    r.previous o = some p ∧ (∃ fuel, route (r.succ key) (r.next key) fuel x = some o) ∧
    ∃ fuel, route (r.pred key) (r.next key) fuel x = some p := by
  simp only [RightAt, findSuccessor, findPredecessor,
    find_eq_route (fun y hy => isSuccessor_eq hy key) _ _ hx,
    find_eq_route (fun y hy => isPredecessor_eq hy key) _ _ hx,
    Option.map_eq_some_iff, Except.ok.injEq, exists_eq_right]

/-- **The keys that are looked up right.** -/
structure Routable (r : HashRing digest) (key : Str) : Prop where
  /-- the key is not the id of a node other than the first -/
  clear : r.Clear key
  /-- no node that is not the successor hands the request to itself -/
  succ_moves : ∀ x ∈ r.lst, (r.node x).isSuccessor key = .ok false →
    (r.node x).closestPrecedingNode key ≠ some x
  /-- no node that is not the predecessor hands the request to itself -/
  pred_moves : ∀ x ∈ r.lst, (r.node x).isPredecessor key = .ok false →
    (r.node x).closestPrecedingNode key ≠ some x
  /-- when the greatest possible id is that of one of several nodes, the key lies below it and
  above the second node -/
  below_top : ∀ m ∈ r.lst, m.id = top → ∀ a ∈ r.lst, a ≠ m →
    key < top ∧ ∃ y ∈ r.lst.tail, y.id < key

/-- The key is the id of a node, and a node that is not the predecessor hands the request to it.
`id_between` takes the key itself for a point between, so the request has gone past the
predecessor. -/
def Overtaken (r : HashRing digest) (key : Str) : Prop :=
  ∃ a ∈ r.lst, a.id = key ∧ ∃ x ∈ r.lst, (r.node x).isPredecessor key = .ok false ∧
    (r.node x).closestPrecedingNode key = some a

/-! ## Each hop comes closer -/

/-- The nodes that a request at `x` has ahead of it. -/
def ahead (r : HashRing digest) (key : Str) (x : NodeID) : Finset NodeID :=
  r.lst.toFinset.filter fun y => idBetween x.id y.id key = true ∧ y ≠ x

/-- **A hop to a node between the request and the key comes closer.** The cases are those of
`id_between`: the key lies ahead, or the way to it passes the end of the ring. -/
theorem ahead_ssubset {g : NodeID} {key : Str} (hg : g ∈ r.lst) (hgx : g ≠ x)
    (hbetween : idBetween x.id g.id key = true) (hxk : x.id ≠ key) (hgk : g.id ≠ key) :
    ahead r key g ⊂ ahead r key x := by
  have hself : g ∉ ahead r key g := fun h => (Finset.mem_filter.mp h).2.2 rfl
  have hmem : g ∈ ahead r key x := Finset.mem_filter.mpr ⟨List.mem_toFinset.mpr hg, hbetween, hgx⟩
  refine Finset.ssubset_iff_subset_ne.mpr ⟨fun y hy => ?_, fun heq => hself (heq ▸ hmem)⟩
  obtain ⟨hyl, hgy, _⟩ := Finset.mem_filter.mp hy
  refine Finset.mem_filter.mpr ⟨hyl, ?_⟩
  rcases lt_or_gt_of_ne hxk with hlt | hgt
  · obtain ⟨hxg, hgkey⟩ := (idBetween_of_lt hlt _).mp hbetween
    obtain ⟨hgy, hyk⟩ := (idBetween_of_lt hgkey _).mp hgy
    exact ⟨(idBetween_of_lt hlt _).mpr ⟨hxg.trans hgy, hyk⟩,
      fun heq => absurd (hxg.trans hgy) (heq ▸ lt_irrefl _)⟩
  · rw [idBetween_of_le hgt.le]
    rcases (idBetween_of_le hgt.le _).mp hbetween with hgkey | hxg
    · obtain ⟨_, hyk⟩ := (idBetween_of_lt (lt_of_le_of_ne hgkey hgk) _).mp hgy
      exact ⟨Or.inl hyk.le, fun heq => absurd (heq ▸ hyk) (not_lt.mpr hgt.le)⟩
    · have hxg' : x.id < g.id := lt_of_le_of_ne hxg fun h => hgx (r.ascending.inj hg hx h.symm)
      rcases (idBetween_of_le (hgt.trans hxg').le _).mp hgy with hyk | hgy
      · exact ⟨Or.inl hyk, fun heq => absurd (heq ▸ hyk) (not_le.mpr hgt)⟩
      · exact ⟨Or.inr (hxg.trans hgy), fun heq => absurd (heq ▸ hgy) (not_le.mpr hxg')⟩

/-- The node at or after the key, and only it, says that it is the successor. -/
theorem succ_iff {key : Str} (hclear : r.Clear key) :
    r.succ key x = true ↔ IsAtOrAfter NodeID.id r.lst key x := by
  obtain ⟨p, hp, hbefore⟩ := exists_previous hx
  rw [succ, hp, Option.getD_some]
  exact idBetween_previous_iff hclear hx hbefore

omit hx in
/-- The list is sorted. -/
theorem head_lt_tail {a y : NodeID} (ha : r.lst.head? = some a) (hy : y ∈ r.lst.tail) :
    a.id < y.id := by
  obtain ⟨t, ht⟩ := List.head?_eq_some_iff.mp ha
  have hasc := r.ascending
  rw [ht] at hasc hy
  exact List.rel_of_pairwise_cons hasc hy

/-- What `below_top` says of a node whose first finger is not its next node. -/
theorem below_top_of_front {key : Str} (h : Routable r key) {y : NodeID} (htop : x.id = top)
    (hy : y ∈ r.lst.tail) (hmin : ∀ z ∈ r.lst.tail, y.id ≤ z.id) : y.id < key ∧ key < x.id := by
  obtain ⟨a, ha⟩ := Option.isSome_iff_exists.mp
    (List.isSome_head?.mpr (List.ne_nil_of_mem hx))
  have hlt : a.id < x.id :=
    (head_lt_tail ha hy).trans_le (htop ▸ (isId_id (List.mem_of_mem_tail hy)).le_top)
  obtain ⟨hkey, z, hz, hzk⟩ := h.below_top x hx htop a (List.mem_of_mem_head? ha)
    fun heq => absurd hlt (heq ▸ lt_irrefl _)
  exact ⟨(hmin z hz).trans_lt hzk, htop ▸ hkey⟩

/-- **The last hop.** Where no finger lies between the node and the key, the first finger is
the next node, and it is the owner of the key. -/
theorem last_hop {key : Str} (h : Routable r key) (hxk : x.id ≠ key) {y : NodeID}
    (hy : (r.node x).fingertable.head? = some y)
    (hnone : ∀ z ∈ (r.node x).fingertable, idBetween x.id z.id key = false) :
    IsAfter NodeID.id r.lst x.id y ∧ IsAtOrAfter NodeID.id r.lst key y := by
  have hnot : ¬ idBetween x.id y.id key = true := by
    rw [hnone y (List.mem_of_mem_head? hy)]
    decide +kernel
  rcases front_cases hx hy with hafter | ⟨htop, hyt, hmin⟩
  · refine ⟨hafter, ?_⟩
    rcases lt_or_gt_of_ne hxk with hlt | hgt
    · rw [idBetween_of_lt hlt] at hnot
      rcases hafter with ⟨hyl, hxy, hmin⟩ | ⟨hall, hfirst⟩
      · have hky : key ≤ y.id := not_lt.mp fun hlt' => hnot ⟨hxy, hlt'⟩
        exact Or.inl ⟨hyl, hky, fun z hz hkz => hmin z hz (hlt.trans_le hkz)⟩
      · exact Or.inr ⟨fun z hz => (hall z hz).trans_lt hlt, hfirst⟩
    · rw [idBetween_of_le hgt.le, not_or, not_le, not_le] at hnot
      rcases hafter with ⟨_, hxy, _⟩ | ⟨_, hfirst⟩
      · exact absurd hxy (not_lt.mpr hnot.2.le)
      · exact Or.inl ⟨hfirst.1, hnot.1.le, fun z hz _ => hfirst.2 z hz⟩
  · obtain ⟨hyk, hkx⟩ := below_top_of_front hx h htop hyt hmin
    exact absurd ((idBetween_of_le hkx.le _).mpr (Or.inl hyk.le)) hnot

/-- A node that is the key's id is its owner. -/
theorem owns_own_id {key : Str} (hclear : r.Clear key) (hxk : x.id = key) :
    IsAtOrAfter NodeID.id r.lst key x :=
  Or.inl ⟨hx, hxk.ge, fun y hy _ => (hclear x hx hxk).2 y hy⟩

/-- **`find_successor` ends at the owner.** -/
theorem succ_right {key : Str} (h : Routable r key) {o : NodeID}
    (ho : IsAtOrAfter NodeID.id r.lst key o) :
    ∃ fuel, route (r.succ key) (r.next key) fuel x = some o := by
  have hhop : ∀ y, y ∈ r.lst → r.succ key y = false → r.next key y ∈ r.lst ∧
      (r.succ key (r.next key y) = true ∨
        (ahead r key (r.next key y)).card < (ahead r key y).card) := by
    intro y hy hno
    have hg := next_mem hy key
    have hyk : y.id ≠ key := fun hyk => by
      rw [(succ_iff hy h.clear).mpr (owns_own_id hy h.clear hyk)] at hno
      cases hno
    refine ⟨hg, ?_⟩
    rcases next_cases hy key with ⟨_, hbetween⟩ | ⟨hhead, hnone⟩
    · by_cases hgk : (r.next key y).id = key
      · exact Or.inl ((succ_iff hg h.clear).mpr (owns_own_id hg h.clear hgk))
      · have hmove : r.next key y ≠ y := fun heq =>
          h.succ_moves y hy (hno ▸ isSuccessor_eq hy key) (by rw [closestPrecedingNode_eq hy, heq])
        exact Or.inr (Finset.card_lt_card (ahead_ssubset hy hg hmove hbetween hyk hgk))
    · exact Or.inl ((succ_iff hg h.clear).mpr (last_hop hy h hyk hhead hnone).2)
  obtain ⟨fuel, y, hroute, hy⟩ := route_of_measure (P := fun y => y ∈ r.lst)
    (fun y => (ahead r key y).card) hhop hx
  have hyo := ((succ_iff hy h.clear).mp (route_answers hroute)).unique r.ascending ho
  exact ⟨fuel, hyo ▸ hroute⟩

/-- The node before the owner, and only it, says that it is the predecessor. -/
theorem pred_iff {key : Str} (h : Routable r key) {o : NodeID}
    (ho : IsAtOrAfter NodeID.id r.lst key o) :
    r.pred key x = true ↔ IsBefore NodeID.id r.lst o.id x := by
  obtain ⟨y, k, hy, _⟩ := front_finger hx
  rw [pred, hy, Option.getD_some]
  rcases front_cases hx hy with hafter | ⟨htop, hyt, hmin⟩
  · have hbefore := (isAfter_iff_isBefore hx hafter.mem).mp hafter
    rw [idBetween_previous_iff h.clear hafter.mem hbefore]
    constructor
    · intro hyo
      rw [hyo.unique r.ascending ho] at hbefore
      exact hbefore
    · intro hxo
      have hafter' := (isAfter_iff_isBefore hx ho.mem).mpr hxo
      rw [hafter.unique r.ascending hafter']
      exact ho
  · -- the greatest node does not answer, and is not the one before the owner
    obtain ⟨hyk, hkx⟩ := below_top_of_front hx h htop hyt hmin
    have hyl := List.mem_of_mem_tail hyt
    have hko : key ≤ o.id := ho.elim (fun ho => ho.2.1) fun ho =>
      absurd (ho.1 x hx) (not_lt.mpr hkx.le)
    rw [idBetween_of_le (htop ▸ (isId_id hyl).le_top)]
    refine iff_of_false ?_ ?_
    · rintro (hky | hxk)
      · exact absurd hyk (not_lt.mpr hky)
      · exact absurd hkx (not_lt.mpr hxk)
    · rintro (⟨_, hlt, _⟩ | ⟨hfirst, _⟩)
      · exact absurd hlt (not_lt.mpr (htop ▸ (isId_id ho.mem).le_top))
      · exact absurd (hfirst y hyl) (not_le.mpr (hyk.trans_le hko))

/-- A node that is not the predecessor of the key and not its id: its hop comes closer. -/
theorem pred_hop {key : Str} (h : Routable r key) (hno : r.pred key x = false) (hxk : x.id ≠ key) :
    idBetween x.id (r.next key x).id key = true ∧ r.next key x ≠ x := by
  have hmove : r.next key x ≠ x := fun heq =>
    h.pred_moves x hx (hno ▸ isPredecessor_eq hx key) (by rw [closestPrecedingNode_eq hx, heq])
  rcases next_cases hx key with ⟨_, hbetween⟩ | ⟨hhead, hnone⟩
  · exact ⟨hbetween, hmove⟩
  · obtain ⟨hafter, howner⟩ := last_hop hx h hxk hhead hnone
    rw [(pred_iff hx h howner).mpr ((isAfter_iff_isBefore hx hafter.mem).mp hafter)] at hno
    cases hno

/-- The nodes behind `x` in the list. -/
def above (r : HashRing digest) (x : NodeID) : Finset NodeID :=
  r.lst.toFinset.filter fun y => x.id < y.id

omit hx in
/-- A hop to a greater id leaves fewer nodes above. -/
theorem card_above_lt {g : NodeID} (hg : g ∈ r.lst) (hlt : x.id < g.id) :
    (above r g).card < (above r x).card := by
  have hself : g ∉ above r g := fun h => lt_irrefl _ (Finset.mem_filter.mp h).2
  have hmem : g ∈ above r x := Finset.mem_filter.mpr ⟨List.mem_toFinset.mpr hg, hlt⟩
  refine Finset.card_lt_card (Finset.ssubset_iff_subset_ne.mpr
    ⟨fun z hz => ?_, fun heq => hself (heq ▸ hmem)⟩)
  obtain ⟨hzl, hgz⟩ := Finset.mem_filter.mp hz
  exact Finset.mem_filter.mpr ⟨hzl, hlt.trans hgz⟩

/-- **`find_predecessor` ends.** When no node has the key as its id, each hop comes closer.
Otherwise the first node has it, and a request that no hop takes there climbs the list. -/
theorem pred_ends {key : Str} (h : Routable r key) (hover : ¬ Overtaken r key) :
    ∃ fuel y, route (r.pred key) (r.next key) fuel x = some y ∧ y ∈ r.lst := by
  -- A key that is the id of the first node: no hop leads to that node, so every hop raises the id.
  by_cases hids : ∃ a ∈ r.lst, a.id = key
  · obtain ⟨a, ha, hak⟩ := hids
    have hfirst := h.clear a ha hak
    refine route_of_measure (P := fun y => y ∈ r.lst) (fun y => (above r y).card) ?_ hx
    intro y hy hno
    have hg := next_mem hy key
    have hga : r.next key y ≠ a := fun hga => hover ⟨a, ha, hak, y, hy,
      hno ▸ isPredecessor_eq hy key, by rw [closestPrecedingNode_eq hy, hga]⟩
    have hag : a.id < (r.next key y).id := lt_of_le_of_ne (hfirst.2 _ hg) fun heq =>
      hga (r.ascending.inj hg ha heq.symm)
    refine ⟨hg, Or.inr (card_above_lt hg ?_)⟩
    by_cases hyk : y.id = key
    · exact (hyk.trans hak.symm) ▸ hag
    · have hky : key < y.id := lt_of_le_of_ne (hak ▸ hfirst.2 y hy) (Ne.symm hyk)
      obtain ⟨hbetween, hmove⟩ := pred_hop hy h hno hyk
      rcases (idBetween_of_le hky.le _).mp hbetween with hgk | hyg
      · exact absurd hag (not_lt.mpr (hak ▸ hgk))
      · exact lt_of_le_of_ne hyg fun heq => hmove (r.ascending.inj hg hy heq.symm)
  · -- Any other key: every hop leaves fewer nodes between itself and the key.
    have hne : ∀ y ∈ r.lst, y.id ≠ key := fun y hy heq => hids ⟨y, hy, heq⟩
    refine route_of_measure (P := fun y => y ∈ r.lst) (fun y => (ahead r key y).card) ?_ hx
    intro y hy hno
    have hg := next_mem hy key
    obtain ⟨hbetween, hmove⟩ := pred_hop hy h hno (hne y hy)
    exact ⟨hg, Or.inr (Finset.card_lt_card
      (ahead_ssubset hy hg hmove hbetween (hne y hy) (hne _ hg)))⟩

/-- On a routable ring whose first node is not overtaken, both lookups are right from every node. -/
theorem Routable.rightAt {key : Str} (h : Routable r key) (hover : ¬ Overtaken r key) :
    RightAt r key x := by
  obtain ⟨o, howner⟩ := exists_atOrAfter (f := NodeID.id) r.nonempty key
  have ho := (atOrAfter_eq_some_iff r.ascending).mp howner
  obtain ⟨p, hp, hbefore⟩ := exists_previous ho.mem
  obtain ⟨fuel, y, hroute, hy⟩ := pred_ends hx h hover
  have hyp := ((pred_iff hy h ho).mp (route_answers hroute)).unique r.ascending hbefore
  exact (rightAt_iff hx key).mpr ⟨o, p, howner, hp, succ_right hx h ho, fuel, hyp ▸ hroute⟩

end HashRing

namespace HashRing

variable {digest : Digest} {r : HashRing digest} {key : Str}

/-! ## What right lookups need -/

section

variable (h : ∀ x ∈ r.lst, RightAt r key x)

include h

/-- The owner answers, so its own id is no key of it. -/
theorem clear_of_right : r.Clear key := by
  rintro x hx rfl
  by_contra hnot
  obtain ⟨o, _, howner, _, ⟨fuel, hroute⟩, _⟩ := (rightAt_iff hx x.id).mp (h x hx)
  have hxo : IsAtOrAfter NodeID.id r.lst x.id x := Or.inl ⟨hx, le_rfl, fun _ _ h => h⟩
  obtain rfl := hxo.unique r.ascending ((atOrAfter_eq_some_iff r.ascending).mp howner)
  have hans := route_answers hroute
  obtain ⟨p, hp, hbefore⟩ := exists_previous hx
  rw [succ, hp, Option.getD_some, idBetween_own_id hx hnot hbefore] at hans
  cases hans

/-- A request for the successor does not stay among nodes that do not answer. -/
theorem succ_not_closed {C : NodeID → Prop}
    (hC : ∀ x, C x → r.succ key x = false ∧ C (r.next key x)) {x : NodeID} (hx : x ∈ r.lst) :
    ¬ C x := by
  intro hCx
  obtain ⟨_, _, _, _, ⟨fuel, hroute⟩, _⟩ := (rightAt_iff hx key).mp (h x hx)
  rw [route_none hC fuel hCx] at hroute
  cases hroute

/-- A node that does not answer for the successor hands the request on. -/
theorem succ_moves_of_right {x : NodeID} (hx : x ∈ r.lst)
    (hno : (r.node x).isSuccessor key = .ok false) :
    (r.node x).closestPrecedingNode key ≠ some x := by
  intro hself
  rw [closestPrecedingNode_eq hx] at hself
  rw [isSuccessor_eq hx] at hno
  refine succ_not_closed h (C := fun y => y = x) ?_ hx rfl
  rintro y rfl
  exact ⟨Except.ok.inj hno, Option.some.inj hself⟩

/-- So does one that does not answer for the predecessor. -/
theorem pred_moves_of_right {x : NodeID} (hx : x ∈ r.lst)
    (hno : (r.node x).isPredecessor key = .ok false) :
    (r.node x).closestPrecedingNode key ≠ some x := by
  intro hself
  rw [closestPrecedingNode_eq hx] at hself
  rw [isPredecessor_eq hx] at hno
  obtain ⟨_, _, _, _, _, fuel, hroute⟩ := (rightAt_iff hx key).mp (h x hx)
  have hnone := route_none (C := fun y => y = x) (by
    rintro y rfl
    exact ⟨Except.ok.inj hno, Option.some.inj hself⟩) fuel (x := x) rfl
  rw [hnone] at hroute
  cases hroute

/-- In a ring with the greatest id nobody hands a request to the first node, so the key does
not belong to it; and the greatest node takes every key up to the second node for one it
precedes, so the key lies above that. -/
theorem below_top_of_right {m a : NodeID} (hm : m ∈ r.lst) (htop : m.id = top) (ha : a ∈ r.lst)
    (hne : a ≠ m) : key < top ∧ ∃ y ∈ r.lst.tail, y.id < key := by
  have hclear := clear_of_right h
  obtain ⟨f, hf⟩ := Option.isSome_iff_exists.mp (List.isSome_head?.mpr r.nonempty)
  have hfirst := r.ascending.isFirst_head hf
  have hmf : m ≠ f := by
    rintro rfl
    exact hne (r.ascending.inj ha hm (le_antisymm (htop ▸ (isId_id ha).le_top) (hfirst.2 a ha)))
  obtain ⟨o, p, howner, hprev, _, fuel, hroute⟩ := (rightAt_iff hm key).mp (h m hm)
  have ho := (atOrAfter_eq_some_iff r.ascending).mp howner
  have hof : o ≠ f := by
    rintro rfl
    refine succ_not_closed h (C := fun y => y ∈ r.lst ∧ y ≠ o) ?_ hm ⟨hm, hmf⟩
    rintro y ⟨hy, hyo⟩
    have hfinger : r.next key y ∈ (r.node y).fingertable :=
      (next_cases hy key).elim And.left fun h => List.mem_of_mem_head? h.1
    refine ⟨?_, next_mem hy key, finger_ne_first hy hm htop hmf hf hfinger⟩
    rw [← Bool.not_eq_true, succ_iff hy hclear]
    exact fun hyo' => hyo (hyo'.unique r.ascending ho)
  have hko : key ≤ o.id := ho.elim (fun ho => ho.2.1) fun ho =>
    absurd (ho.2.unique r.ascending hfirst) hof
  have hkt : key < top := by
    refine lt_of_le_of_ne (hko.trans (isId_id ho.mem).le_top) fun heq => hmf ?_
    exact (hclear m hm (htop.trans heq.symm)).unique r.ascending hfirst
  refine ⟨hkt, ?_⟩
  by_contra hnone
  have habove : ∀ y ∈ r.lst.tail, key ≤ y.id := fun y hy => not_lt.mp fun hlt => hnone ⟨y, hy, hlt⟩
  obtain ⟨y, _, hy, _⟩ := front_finger hm
  have hyf := finger_ne_first hm hm htop hmf hf (List.mem_of_mem_head? hy)
  -- the greatest node answers with itself, which is not the node before the owner
  have hself : r.pred key m = true := by
    rw [pred, hy, Option.getD_some]
    rcases front_cases hm hy with (⟨hyl, hlt, _⟩ | ⟨_, hy⟩) | ⟨_, hyt, _⟩
    · exact absurd hlt (not_lt.mpr (htop ▸ (isId_id hyl).le_top))
    · exact absurd (hy.unique r.ascending hfirst) hyf
    · have hyl := List.mem_of_mem_tail hyt
      exact (idBetween_of_le (htop ▸ (isId_id hyl).le_top) _).mpr (Or.inl (habove y hyt))
  have hpm : p = m := by
    cases fuel with
    | zero => cases hroute
    | succ fuel =>
      rw [route, if_pos hself] at hroute
      exact (Option.some.inj hroute).symm
  rcases (before_eq_some_iff r.ascending).mp (hpm ▸ hprev) with ⟨_, hlt, _⟩ | ⟨hall, _⟩
  · exact absurd hlt (not_lt.mpr (htop ▸ (isId_id ho.mem).le_top))
  · exact hof (IsFirst.unique r.ascending ⟨ho.mem, hall⟩ hfirst)

end

/-- Each condition is needed: where all lookups are right the key is routable. -/
theorem Routable.of_right (h : ∀ x ∈ r.lst, RightAt r key x) : Routable r key where
  clear := clear_of_right h
  succ_moves _ hx := succ_moves_of_right h hx
  pred_moves _ hx := pred_moves_of_right h hx
  below_top _ hm htop _ ha := below_top_of_right h hm htop ha

/-- A routable key that is the id of a node is the id of the first one. -/
theorem Routable.not_overtaken (h : Routable r key)
    (hfirst : ∀ a, r.lst.head? = some a → a.id ≠ key) : ¬ Overtaken r key := by
  rintro ⟨a, ha, hak, _⟩
  obtain ⟨f, hf⟩ := Option.isSome_iff_exists.mp (List.isSome_head?.mpr r.nonempty)
  have haf := (h.clear a ha hak).unique r.ascending (r.ascending.isFirst_head hf)
  exact hfirst f hf (haf ▸ hak)

/-- Keys above all ids belong to the first node; a request for one of them climbs the list. -/
theorem routable_of_above (hkey : IsId key) (htwo : r.lst.tail ≠ [])
    (habove : ∀ x ∈ r.lst, x.id < key) : Routable r key := by
  have hmove : ∀ x ∈ r.lst, (r.node x).closestPrecedingNode key ≠ some x := by
    intro x hx hself
    rw [closestPrecedingNode_eq hx, Option.some_inj] at hself
    rcases next_cases hx key with ⟨_, hbetween⟩ | ⟨hhead, _⟩
    · rw [hself, idBetween_of_lt (habove x hx)] at hbetween
      exact absurd hbetween.1 (lt_irrefl _)
    · rw [hself] at hhead
      obtain ⟨y, hy⟩ := List.exists_mem_of_ne_nil _ htwo
      rcases front_cases hx hhead with (⟨_, hlt, _⟩ | ⟨hmax, hfirst⟩) | ⟨htop, _⟩
      · exact absurd hlt (lt_irrefl _)
      · -- the node would be first and last at once
        obtain ⟨a, ha⟩ := Option.isSome_iff_exists.mp (List.isSome_head?.mpr r.nonempty)
        have hay := head_lt_tail ha hy
        have hxa := hfirst.2 a (List.mem_of_mem_head? ha)
        exact absurd (hmax y (List.mem_of_mem_tail hy)) (not_le.mpr (hxa.trans_lt hay))
      · exact absurd (htop ▸ habove x hx) (not_lt.mpr hkey.le_top)
  have hne : ∀ x ∈ r.lst, x.id ≠ key := fun x hx => (habove x hx).ne
  exact ⟨fun x hx hid => absurd hid (hne x hx), fun x hx _ => hmove x hx,
    fun x hx _ => hmove x hx,
    fun m hm htop => absurd (htop ▸ habove m hm) (not_lt.mpr hkey.le_top)⟩

/-- **When lookups are right.** The condition is enough for every key and needed for every key
but the id of the first node. A request for that id that is overtaken starts again at the
first node, and may still come to the predecessor from there. -/
theorem lookup_iff (r : HashRing digest) (key : Str) :
    (Routable r key ∧ ¬ Overtaken r key → ∀ x ∈ r.lst, RightAt r key x) ∧
      ((∀ x ∈ r.lst, RightAt r key x) → Routable r key) ∧
      ((∀ a, r.lst.head? = some a → a.id ≠ key) →
        ((∀ x ∈ r.lst, RightAt r key x) ↔ Routable r key ∧ ¬ Overtaken r key)) := by
  have henough : Routable r key ∧ ¬ Overtaken r key → ∀ x ∈ r.lst, RightAt r key x :=
    fun ⟨h, hover⟩ x hx => h.rightAt hx hover
  refine ⟨henough, Routable.of_right, fun hfirst => ⟨fun h => ?_, henough⟩⟩
  exact ⟨Routable.of_right h, (Routable.of_right h).not_overtaken hfirst⟩

end HashRing

/-- Three servers of this machine. -/
def localThree : HashRing localDigest where
  lst := [localNode 9091, localNode 9092, localNode 9090]
  nonempty := by simp
  ascending := by
    rw [Ascending]
    decide +kernel
  ids x hx := by
    simp only [List.mem_cons, List.not_mem_nil, or_false] at hx
    rcases hx with rfl | rfl | rfl <;> rfl

/-- The three servers look up the greatest key right. -/
theorem lookup_of_greatest : ∀ x ∈ localThree.lst, HashRing.RightAt localThree top x := by
  have habove : ∀ x ∈ localThree.lst, x.id < top := by decide +kernel
  have hover : ¬ HashRing.Overtaken localThree top := by
    rintro ⟨a, ha, hid, _⟩
    exact (habove a ha).ne hid
  exact (HashRing.lookup_iff localThree top).1
    ⟨HashRing.routable_of_above isId_top (by simp [localThree]) habove, hover⟩

/-- No chain of calls for the id of the second server ends, at whichever server it starts. -/
theorem lookup_of_second_endless :
    localThree.owner (localNode 9092).id = some (localNode 9092) ∧
    ∀ x ∈ localThree.lst, ∀ fuel,
      findSuccessor localThree.network fuel (localThree.node x) (localNode 9092).id = none := by
  refine ⟨by decide +kernel, fun x hx fuel => ?_⟩
  have hno : ∀ y ∈ localThree.lst, localThree.succ (localNode 9092).id y = false := by
    decide +kernel
  have hnone := Routing.route_none (C := fun y => y ∈ localThree.lst)
    (fun y hy => ⟨hno y hy, HashRing.next_mem hy (localNode 9092).id⟩) fuel hx
  rw [findSuccessor, HashRing.find_eq_route (fun y hy => HashRing.isSuccessor_eq hy _) _ _ hx,
    hnone]
  rfl

end Cs457.Chord
