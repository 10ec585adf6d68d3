import Cs457.Chord.FileStore
import Cs457.Lib.BigEndian
import Cs457.Lib.Clockwise

/-!
# Chord — who owns a key

A key belongs to the first node clockwise at or after it. A node takes a key for its own when
`id_between` puts it between the ids of its predecessor and itself. The plain branch of
`id_between` is open at its upper end, the wrapped one closed at its lower end; so the id of a
node is nobody's key, or that of the wrong node, unless the node is the first of the ring.

* **`idBetween_previous_iff`** — the test of one node, for a key that is no such id.
* **`key_owned_iff`** — when exactly one node, and the right one, owns a key and serves the
  file stored under it.
-/

namespace Cs457.Chord

open Clockwise
open FileStoreHandler (names)

/-- The nodes of a ring, in the order of their ids. -/
structure Ring where
  lst : List NodeID
  nonempty : lst ≠ []
  ascending : Ascending NodeID.id lst

namespace Ring

/-- The node with the least id at or after the key, or with the least id. -/
def owner (r : Ring) (key : Str) : Option NodeID := atOrAfter NodeID.id r.lst key

/-- The clockwise previous node. -/
def previous (r : Ring) (x : NodeID) : Option NodeID := before NodeID.id r.lst x.id

/-- The key is not the id of a node, except of the first one. -/
def Clear (r : Ring) (key : Str) : Prop := ∀ x ∈ r.lst, x.id = key → IsFirst NodeID.id r.lst x

end Ring

/-- A ring in which every node has its clockwise previous node as `d_predecessor`. -/
structure LinkedRing extends Ring where
  node : NodeID → LocalNode
  self : ∀ x ∈ lst, (node x).toNodeID = x
  linked : ∀ x ∈ lst, (node x).predecessor = toRing.previous x

/-! ## The test of one node -/

/-- **`is_successor` is right for a clear key.** The cases are those of the predecessor: below
the node, or at the other end of the ring. -/
theorem idBetween_previous_iff {r : Ring} {key : Str} (hclear : r.Clear key) {x p : NodeID}
    (hx : x ∈ r.lst) (hp : IsBefore NodeID.id r.lst x.id p) :
    idBetween p.id key x.id = true ↔ IsAtOrAfter NodeID.id r.lst key x := by
  rcases hp with ⟨hpl, hlt, hmax⟩ | ⟨hfirst, hlast⟩
  · rw [idBetween_of_lt hlt]
    constructor
    · rintro ⟨hpk, hkx⟩
      refine Or.inl ⟨hx, hkx.le, fun y hy hky => ?_⟩
      by_contra hcon
      exact absurd (hmax y hy (not_le.mp hcon)) (not_le.mpr (hpk.trans_le hky))
    · rintro (⟨_, hkx, hmin⟩ | ⟨_, hfirst⟩)
      · refine ⟨?_, lt_of_le_of_ne hkx fun heq => ?_⟩
        · by_contra hcon
          exact absurd (hmin p hpl (not_lt.mp hcon)) (not_le.mpr hlt)
        · exact absurd ((hclear x hx heq.symm).2 p hpl) (not_le.mpr hlt)
      · exact absurd (hfirst.2 p hpl) (not_le.mpr hlt)
  · rw [idBetween_of_le (hfirst p hlast.1)]
    constructor
    · rintro (hkx | hpk)
      · exact Or.inl ⟨hx, hkx, fun y hy _ => hfirst y hy⟩
      · rcases hpk.eq_or_lt with heq | hlt
        · -- the last node is also the first one
          have hpx := (hclear p hlast.1 heq).2 x hx
          exact Or.inl ⟨hx, heq ▸ hpx, fun y hy _ => hfirst y hy⟩
        · exact Or.inr ⟨fun y hy => (hlast.2 y hy).trans_lt hlt, hx, hfirst⟩
    · rintro (⟨_, hkx, _⟩ | ⟨hall, _⟩)
      · exact Or.inl hkx
      · exact Or.inr (hall p hlast.1).le

/-- A node other than the first does not own its own id. -/
theorem idBetween_own_id {r : Ring} {y p : NodeID} (hy : y ∈ r.lst)
    (hnot : ¬ IsFirst NodeID.id r.lst y) (hp : IsBefore NodeID.id r.lst y.id p) :
    idBetween p.id y.id y.id = false := by
  rcases hp with ⟨_, hlt, _⟩ | ⟨hfirst, _⟩
  · rw [← Bool.not_eq_true, idBetween_of_lt hlt]
    exact fun h => absurd h.2 (lt_irrefl _)
  · exact absurd ⟨hy, hfirst⟩ hnot

namespace LinkedRing

variable (r : LinkedRing)

/-- A node that is linked owns the ids from the node before it. -/
theorem isSuccessor_eq {x : NodeID} (hx : x ∈ r.lst) :
    ∃ p, IsBefore NodeID.id r.lst x.id p ∧
      ∀ key, (r.node x).isSuccessor key = .ok (idBetween p.id key x.id) := by
  obtain ⟨p, hp⟩ := exists_before (f := NodeID.id) r.nonempty x.id
  refine ⟨p, (before_eq_some_iff r.ascending).mp hp, fun key => ?_⟩
  have hpred : (r.node x).predecessor = some p := (r.linked x hx).trans hp
  have hid : (r.node x).id = x.id := congrArg NodeID.id (r.self x hx)
  simp only [LocalNode.isSuccessor, hpred, hid]

/-- Exactly one node answers, and it is the owner. -/
def OwnedOnce (key : Str) : Prop :=
  ∃ o, r.owner key = some o ∧ ∀ x ∈ r.lst, (r.node x).isSuccessor key = .ok (decide (x = o))

/-- A key has one owner unless it is the id of a node that is not the first. -/
theorem ownedOnce_iff (key : Str) : r.OwnedOnce key ↔ r.Clear key := by
  constructor
  · rintro ⟨o, howner, hone⟩ x hx rfl
    by_contra hnot
    obtain ⟨p, hp, hsucc⟩ := r.isSuccessor_eq hx
    -- the id belongs to `x`, and `x` says no
    have hxo : IsAtOrAfter NodeID.id r.lst x.id x := Or.inl ⟨hx, le_rfl, fun _ _ h => h⟩
    have heq : x = o := hxo.unique r.ascending ((atOrAfter_eq_some_iff r.ascending).mp howner)
    have hans := (hsucc x.id).symm.trans (hone x hx)
    rw [idBetween_own_id hx hnot hp, decide_eq_true heq] at hans
    cases hans
  · intro hclear
    obtain ⟨o, howner⟩ := exists_atOrAfter (f := NodeID.id) r.nonempty key
    have ho := (atOrAfter_eq_some_iff r.ascending).mp howner
    refine ⟨o, howner, fun x hx => ?_⟩
    obtain ⟨p, hp, hsucc⟩ := r.isSuccessor_eq hx
    have hiff : idBetween p.id key x.id = true ↔ x = o := by
      rw [idBetween_previous_iff hclear hx hp]
      exact ⟨fun h => h.unique r.ascending ho, fun h => h ▸ ho⟩
    rw [hsucc, Except.ok.injEq, Bool.eq_iff_iff, hiff, decide_eq_true_iff]

/-! ## Who serves a file -/

/-- The request is not refused for being at the wrong server. -/
def Accepted {α : Type} (result : Except Fault α) : Prop := result ≠ .error notOwner

/-- A write is accepted by the owner of its id. -/
theorem accepted_writeFile {digest : Digest} {h : FileStoreHandler} {rFile : RFile} {b : Bool}
    (hsucc : h.node.isSuccessor (fileId digest (names rFile).1 (names rFile).2) = .ok b) :
    Accepted (h.writeFile digest rFile) ↔ b = true := by
  cases b with
  | false => simp [Accepted, FileStoreHandler.writeFile_of_not_owner hsucc]
  | true => simp [Accepted, FileStoreHandler.writeFile_of_owner hsucc]

/-- A read is accepted by the owner, whether the file exists or not. -/
theorem accepted_readFile {digest : Digest} {h : FileStoreHandler} {filename owner : Str} {b : Bool}
    (hsucc : h.node.isSuccessor (fileId digest filename owner) = .ok b) :
    Accepted (h.readFile digest filename owner) ↔ b = true := by
  cases b with
  | false => simp [Accepted, FileStoreHandler.readFile_of_not_owner hsucc]
  | true =>
    rw [Accepted, FileStoreHandler.readFile_of_owner hsucc]
    split
    · simp [notOwner]
    · simp

/-- The server of a node, with some files. -/
def server (files : NodeID → Str → Option RFile) (x : NodeID) : FileStoreHandler :=
  ⟨r.node x, files x⟩

/-- A file is written and read at the owner of its id and nowhere else. -/
def ServedOnce (digest : Digest) (files : NodeID → Str → Option RFile) (rFile : RFile) : Prop :=
  ∃ o, r.owner (fileId digest (names rFile).1 (names rFile).2) = some o ∧ ∀ x ∈ r.lst,
    (Accepted ((r.server files x).writeFile digest rFile) ↔ x = o) ∧
    (Accepted ((r.server files x).readFile digest (names rFile).1 (names rFile).2) ↔ x = o)

/-- A file has one server when its id has one owner. -/
theorem servedOnce_iff_ownedOnce (digest : Digest) (files : NodeID → Str → Option RFile)
    (rFile : RFile) : r.ServedOnce digest files rFile ↔
      r.OwnedOnce (fileId digest (names rFile).1 (names rFile).2) := by
  refine exists_congr fun o => and_congr_right fun _ => forall₂_congr fun x hx => ?_
  obtain ⟨p, _, hsucc⟩ := r.isSuccessor_eq hx
  have hserver : (r.server files x).node.isSuccessor
      (fileId digest (names rFile).1 (names rFile).2) = .ok _ := hsucc _
  rw [accepted_writeFile hserver, accepted_readFile hserver, and_self, hsucc, Except.ok.injEq]
  exact ⟨fun h => Bool.eq_iff_iff.mpr (h.trans decide_eq_true_iff.symm),
    fun h => by rw [h, decide_eq_true_iff]⟩

/-- **Which keys have one owner.** Exactly one node takes the key for its own, and it is the
first node at or after it, exactly when the key is not the id of a node other than the first;
so it is with the id of a file and the servers that accept its requests. -/
theorem key_owned_iff :
    (∀ key, r.OwnedOnce key ↔ r.Clear key) ∧
    ∀ digest files rFile, r.ServedOnce digest files rFile ↔
      r.Clear (fileId digest (names rFile).1 (names rFile).2) :=
  ⟨r.ownedOnce_iff, fun digest files rFile =>
    (r.servedOnce_iff_ownedOnce digest files rFile).trans (r.ownedOnce_iff _)⟩

end LinkedRing

/-! ## A file that nobody serves right -/

/-- The digests of three addresses; those of other messages do not matter. -/
def localDigest : Digest := fun message =>
  ⟨(BigEndian.toBytes 32 (
    if message = str "127.0.0.1:9090" then
      0xe318e4cd5089903a714f2d5585fb1c70bf1ed0af4fc8fea5b3775a5a687fd040
    else if message = str "127.0.0.1:9091" then
      0x82b9e6b1548ad0837abe6ff674d1d3e982a2038442a1059f595d95962627f827
    else if message = str "127.0.0.1:9092" then
      0xb2bd42182ac6a8872c76db866738d47e04f66a3d2cf5c359962008baa052dbc4
    else 0)).toArray, by simp⟩

/-- The server on a port of this machine. -/
def localNode (port : Int32) : NodeID :=
  (LocalNode.create localDigest (str "127.0.0.1") port).toNodeID

/-- Two servers. -/
def localPair : Ring where
  lst := [localNode 9091, localNode 9090]
  nonempty := by simp
  ascending := by
    rw [Ascending, List.pairwise_pair]
    decide +kernel

/-- The two servers, initialised. -/
def localLinked : LinkedRing where
  toRing := localPair
  node x := { x with predecessor := localPair.previous x }
  self _ _ := rfl
  linked _ _ := rfl

/-- The file `127.0.0.1` of the user `9090` has the id of the server on that port. -/
def addressFile : RFile :=
  { metadata := some { filename := some (str "127.0.0.1"), owner := some (str "9090") } }

/-- The key is the id of the second server, and the first one takes it for its own. -/
theorem id_of_second_misplaced :
    localLinked.owner (localNode 9090).id = some (localNode 9090) ∧
    (localLinked.node (localNode 9090)).isSuccessor (localNode 9090).id = .ok false ∧
    (localLinked.node (localNode 9091)).isSuccessor (localNode 9090).id = .ok true ∧
    fileId localDigest (names addressFile).1 (names addressFile).2 = (localNode 9090).id ∧
    ¬ localLinked.OwnedOnce (localNode 9090).id ∧
    ∀ files, ¬ localLinked.ServedOnce localDigest files addressFile := by
  have hclear : ¬ localLinked.Clear (localNode 9090).id := by
    intro hclear
    have hfirst := hclear (localNode 9090) (List.mem_cons_of_mem _ List.mem_cons_self) rfl
    exact absurd (hfirst.2 (localNode 9091) List.mem_cons_self) (by decide +kernel)
  have hid : fileId localDigest (names addressFile).1 (names addressFile).2
      = (localNode 9090).id := by decide +kernel
  refine ⟨by decide +kernel, by decide +kernel, by decide +kernel, hid,
    fun h => hclear ((localLinked.ownedOnce_iff _).mp h), fun files h => hclear ?_⟩
  rw [← hid]
  exact (localLinked.ownedOnce_iff _).mp
    ((localLinked.servedOnce_iff_ownedOnce localDigest files addressFile).mp h)

end Cs457.Chord
