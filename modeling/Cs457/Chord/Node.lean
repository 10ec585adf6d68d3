import Cs457.Chord.Id

/-!
# Chord — a node

`LocalNode` of `chord.h`: the ring pointers of one server and the two lookups. A lookup that
the node cannot answer is forwarded over RPC, so it is defined on a network of nodes; the
number of calls is bounded by `fuel`, and a chain of calls that is longer has no result.
-/

namespace Cs457.Chord

/-- `SystemException`, or the exception of a socket that cannot be opened. -/
inductive Fault where
  | systemException (message : String)
  | transport
  deriving DecidableEq, Repr

structure LocalNode extends NodeID where
  fingertable : List NodeID := []
  predecessor : Option NodeID := none
  deriving DecidableEq, Repr

/-- `id_between`: open at both ends, or, across the end of the ring, closed at both. -/
def idBetween (lower middle upper : Str) : Bool :=
  if lower < upper then lower < middle ∧ middle < upper
  else ¬ (upper < middle ∧ middle < lower)

namespace LocalNode

/-- The constructor. -/
def create (digest : Digest) (address : Str) (port : Int32) : LocalNode where
  id := nodeId digest address port
  ip := address
  port := port

/-- The table that `set_fingertable` keeps: the ids are computed again. -/
def keepFingertable (digest : Digest) (n : LocalNode) (nodeList : List NodeID) : LocalNode :=
  { n with fingertable := nodeList.map fun m => { m with id := nodeId digest m.ip m.port } }

def isSuccessor (n : LocalNode) (identifier : Str) : Except Fault Bool :=
  match n.predecessor with
  | none => .error (.systemException "Unknown predecessor, can't determine if is successor")
  | some p => .ok (idBetween p.id identifier n.id)

def isPredecessor (n : LocalNode) (identifier : Str) : Except Fault Bool :=
  match n.fingertable.head? with
  | none => .error (.systemException "Unknown successor, can't determine if is predecessor")
  | some s => .ok (idBetween n.id identifier s.id)

/-- The last finger that precedes the key, or else the first finger. -/
def closestPrecedingNode (n : LocalNode) (key : Str) : Option NodeID :=
  (n.fingertable.reverse.find? fun node => idBetween n.id node.id key).or n.fingertable.head?

def getSuccessor (n : LocalNode) : Except Fault NodeID :=
  match n.fingertable.head? with
  | none => .error (.systemException "Empty fingertable, can't get successor")
  | some s => .ok s

end LocalNode

/-- The servers by address. -/
abbrev Network := Str × Int32 → Option LocalNode

/-- `find_successor` and `find_predecessor`: a node for which `answers` holds returns itself,
any other one calls the same method of the closest preceding node. -/
def find (answers : LocalNode → Str → Except Fault Bool) (noFingertable : String) (net : Network) :
    ℕ → LocalNode → Str → Option (Except Fault NodeID)
  | 0, _, _ => none
  | fuel + 1, n, key =>
    match answers n key with
    | .error f => some (.error f)
    | .ok true => some (.ok n.toNodeID)
    | .ok false =>
      match n.closestPrecedingNode key with
      | none => some (.error (.systemException noFingertable))
      | some node =>
        match net (node.ip, node.port) with
        | none => some (.error .transport)
        | some callee => find answers noFingertable net fuel callee key

def findSuccessor (net : Network) (fuel : ℕ) (n : LocalNode) (key : Str) :
    Option (Except Fault NodeID) :=
  find LocalNode.isSuccessor "No fingertable, can't find successor" net fuel n key

def findPredecessor (net : Network) (fuel : ℕ) (n : LocalNode) (key : Str) :
    Option (Except Fault NodeID) :=
  find LocalNode.isPredecessor "Unknown successor, can't find successor" net fuel n key

/-! ## The two branches of `id_between` -/

/-- On an interval that does not wrap, both bounds are excluded. -/
theorem idBetween_of_lt {lower upper : Str} (h : lower < upper) (middle : Str) :
    idBetween lower middle upper = true ↔ lower < middle ∧ middle < upper := by
  rw [idBetween, if_pos h, decide_eq_true_iff]

/-- On one that wraps, both bounds are included. -/
theorem idBetween_of_le {lower upper : Str} (h : upper ≤ lower) (middle : Str) :
    idBetween lower middle upper = true ↔ middle ≤ upper ∨ lower ≤ middle := by
  rw [idBetween, if_neg (not_lt.mpr h), decide_eq_true_iff, not_and_or, not_lt, not_lt]

end Cs457.Chord
