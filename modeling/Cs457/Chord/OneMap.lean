import Cs457.Chord.Disk
import Cs457.Chord.Ownership

/-!
# Chord — a ring is one map

No two servers of a linked ring accept the same id, whether or not the id is one that
`is_successor` gets right. So the directories of all servers together are one map of files by
their ids: whichever servers the clients call, and in whatever order, the calls that are accepted
have the outcomes of one map.

* **`accepts_unique`** — one server for an id.
* **`Shared.call`** — one call.
* **`ring_history`** — any sequence of calls at any servers.
-/

namespace Cs457.Chord

open Clockwise Transition

variable {P : TaggedStruct.TProtocol} {T : FileTransport} {digest : Digest}

/-! ## One map -/

/-- A call on a map of files. -/
def onMap (digest : Digest) (call : Call) (store : Str → Option RFile) :
    Except Fault (Option RFile) × (Str → Option RFile) :=
  match call with
  | .readFile filename owner =>
    match store (fileId digest filename owner) with
    | none => (.error (.systemException "File does not exist"), store)
    | some file => (.ok (some file), store)
  | .writeFile rFile =>
    (.ok none, Function.update store (call.id digest) (some
      (FileStoreHandler.stamped digest rFile
        (FileStoreHandler.nextVersion (store (call.id digest))))))

/-- A server that accepts an id treats its files as a map. -/
theorem onRecords_of_accepts {node : LocalNode} {call : Call}
    (h : node.isSuccessor (call.id digest) = .ok true) (files : Str → Option RFile) :
    onRecords digest node call files = onMap digest call files := by
  cases call with
  | readFile filename owner =>
    simp only [onRecords, onMap, FileStoreHandler.readFile_of_owner (h := ⟨node, files⟩) h]
    cases files (fileId digest filename owner) with
    | none => rfl
    | some file => rfl
  | writeFile rFile =>
    simp only [onRecords, FileStoreHandler.writeFile_of_owner (h := ⟨node, files⟩) h]
    rfl

/-- A server that is not the owner refuses the call and keeps its files. -/
theorem onRecords_of_refuses {node : LocalNode} {call : Call}
    (h : node.isSuccessor (call.id digest) = .ok false) (files : Str → Option RFile) :
    onRecords digest node call files = (.error notOwner, files) := by
  cases call with
  | readFile filename owner =>
    simp only [onRecords, FileStoreHandler.readFile_of_not_owner (h := ⟨node, files⟩) h]
    rfl
  | writeFile rFile =>
    simp only [onRecords, FileStoreHandler.writeFile_of_not_owner (h := ⟨node, files⟩) h]

/-- A call changes nothing but the file that it is about. -/
theorem onMap_of_ne {call : Call} {store : Str → Option RFile} {id : Str}
    (h : id ≠ call.id digest) : (onMap digest call store).2 id = store id := by
  cases call with
  | readFile filename owner =>
    rw [onMap]
    cases store (fileId digest filename owner) with
    | none => rfl
    | some file => rfl
  | writeFile rFile => exact Function.update_of_ne h _ _

/-- What a call does depends on this file only. -/
theorem onMap_congr {call : Call} {store store' : Str → Option RFile}
    (h : store (call.id digest) = store' (call.id digest)) :
    (onMap digest call store).1 = (onMap digest call store').1 ∧
      (onMap digest call store).2 (call.id digest)
        = (onMap digest call store').2 (call.id digest) := by
  cases call with
  | readFile filename owner =>
    simp only [Call.id] at h
    simp only [onMap, Call.id, h]
    cases hfile : store' (fileId digest filename owner) with
    | none => exact ⟨rfl, h.trans rfl⟩
    | some file => exact ⟨rfl, h.trans rfl⟩
  | writeFile rFile => exact ⟨rfl, by simp only [onMap, h, Function.update_self]⟩

namespace LinkedRing

variable (r : LinkedRing)

/-! ## One server for an id -/

/-- The server does not refuse the id. -/
def Accepts (id : Str) (x : NodeID) : Prop := (r.node x).isSuccessor id = .ok true

instance (id : Str) (x : NodeID) : Decidable (r.Accepts id x) :=
  inferInstanceAs (Decidable ((r.node x).isSuccessor id = .ok true))

variable {r}

/-- A server that accepts an id has it behind the server before it, or is the first of the
list and has it outside of the list. -/
theorem Accepts.cases {id : Str} {x : NodeID} (hx : x ∈ r.lst) (h : r.Accepts id x) :
    (∃ p ∈ r.lst, p.id < id ∧ id < x.id ∧ ∀ y ∈ r.lst, y.id < x.id → y.id ≤ p.id) ∨
      (IsFirst NodeID.id r.lst x ∧ ∃ l, IsLast NodeID.id r.lst l ∧ (id ≤ x.id ∨ l.id ≤ id)) := by
  obtain ⟨p, hp, hsucc⟩ := r.isSuccessor_eq hx
  have hbetween : idBetween p.id id x.id = true := Except.ok.inj ((hsucc id).symm.trans h)
  rcases hp with ⟨hpl, hlt, hmax⟩ | ⟨hfirst, hlast⟩
  · obtain ⟨hpk, hkx⟩ := (idBetween_of_lt hlt _).mp hbetween
    exact Or.inl ⟨p, hpl, hpk, hkx, hmax⟩
  · exact Or.inr ⟨⟨hx, hfirst⟩, p, hlast, (idBetween_of_le (hfirst p hlast.1) _).mp hbetween⟩

/-- An id between a node and the one before it does not lie outside all ids. -/
theorem not_inside_of_outside {id : Str} {x y p l : NodeID} (hx : x ∈ r.lst) (hp : p ∈ r.lst)
    (hpk : p.id < id) (hkx : id < x.id) (hy : IsFirst NodeID.id r.lst y)
    (hl : IsLast NodeID.id r.lst l) : ¬ (id ≤ y.id ∨ l.id ≤ id) := by
  rintro (hky | hlk)
  · exact absurd (hpk.trans_le hky) (not_lt.mpr (hy.2 p hp))
  · exact absurd (hlk.trans_lt hkx) (not_lt.mpr (hl.2 x hx))

/-- **One server for an id**, also for the ids that `is_successor` gets wrong. -/
theorem accepts_unique {id : Str} {x y : NodeID} (hx : x ∈ r.lst) (hy : y ∈ r.lst)
    (hax : r.Accepts id x) (hay : r.Accepts id y) : x = y := by
  rcases hax.cases hx with ⟨p, hp, hpk, hkx, hpmax⟩ | ⟨hxfirst, l, hl, hxk⟩
  · rcases hay.cases hy with ⟨q, hq, hqk, hky, hqmax⟩ | ⟨hyfirst, l, hl, hyk⟩
    · refine r.ascending.inj hx hy (le_antisymm ?_ ?_)
      · by_contra hlt
        exact absurd ((hpmax y hy (not_le.mp hlt)).trans_lt hpk) (not_lt.mpr hky.le)
      · by_contra hlt
        exact absurd ((hqmax x hx (not_le.mp hlt)).trans_lt hqk) (not_lt.mpr hkx.le)
    · exact absurd hyk (not_inside_of_outside hx hp hpk hkx hyfirst hl)
  · rcases hay.cases hy with ⟨q, hq, hqk, hky, _⟩ | ⟨hyfirst, _⟩
    · exact absurd hxk (not_inside_of_outside hy hq hqk hky hxfirst hl)
    · exact hxfirst.unique r.ascending hyfirst

/-- Every server can tell whether an id is its own. -/
theorem refuses_of_not_accepts {id : Str} {x : NodeID} (hx : x ∈ r.lst) (h : ¬ r.Accepts id x) :
    (r.node x).isSuccessor id = .ok false := by
  obtain ⟨p, _, hsucc⟩ := r.isSuccessor_eq hx
  rw [Accepts, hsucc, Except.ok.injEq, Bool.not_eq_true] at h
  rw [hsucc, h]

/-! ## The directories of a ring -/

variable (r)

/-- The files of one server, when all of them together are `store`. -/
def share (store : Str → Option RFile) (x : NodeID) (id : Str) : Option RFile :=
  if r.Accepts id x then store id else none

/-- **The invariant.** Each server has its share, in files that anyone may have written. -/
def Shared (P : TaggedStruct.TProtocol) (T : FileTransport) (disks : NodeID → Disk)
    (store : Str → Option RFile) : Prop :=
  ∀ x ∈ r.lst, Holds (encoded P T) (disks x) (r.share store x)

/-- A call at a server of the ring. -/
def onServer (P : TaggedStruct.TProtocol) (T : FileTransport) (digest : Digest)
    (c : NodeID × Call) (disks : NodeID → Disk) :
    Except Fault (Option RFile) × (NodeID → Disk) :=
  let (outcome, disk) := onDisk P T digest (r.node c.1) c.2 (disks c.1)
  (outcome, Function.update disks c.1 disk)

/-- The same call, when the files are in one place and the server only says whether it is the
one for them. -/
def onOneMap (digest : Digest) (c : NodeID × Call) (store : Str → Option RFile) :
    Except Fault (Option RFile) × (Str → Option RFile) :=
  if r.Accepts (c.2.id digest) c.1 then onMap digest c.2 store else (.error notOwner, store)

variable {r}

/-- **One call.** The cases are whether the server accepts the id; if it does, no other server
does, so that their shares stay as they are. -/
theorem Shared.call (digest : Digest) {disks : NodeID → Disk} {store : Str → Option RFile}
    (h : r.Shared P T disks store) {x : NodeID} (hx : x ∈ r.lst) {call : Call}
    (hfits : call.Fits (encoded P T) digest) :
    (r.onServer P T digest (x, call) disks).1 = (r.onOneMap digest (x, call) store).1 ∧
      r.Shared P T (r.onServer P T digest (x, call) disks).2
        (r.onOneMap digest (x, call) store).2 := by
  obtain ⟨hsame, hholds⟩ :
      (onDisk P T digest (r.node x) call (disks x)).1 = _ ∧ Holds (encoded P T) _ _ :=
    (h x hx).perform hfits
  simp only [onServer, onOneMap]
  -- The owner runs the call on its share; every other server refuses and writes nothing.
  by_cases haccepts : r.Accepts (call.id digest) x
  · rw [if_pos haccepts]
    rw [onRecords_of_accepts haccepts] at hsame hholds
    have hid : r.share store x (call.id digest) = store (call.id digest) := if_pos haccepts
    obtain ⟨houtcome, hfile⟩ := onMap_congr hid
    refine ⟨hsame.trans houtcome, fun y hy => ?_⟩
    -- The new share of each server: only the owner of the id sees the file just written.
    have hshare : r.share (onMap digest call store).2 y
        = if y = x then (onMap digest call (r.share store x)).2 else r.share store y := by
      funext id
      by_cases hone : id = call.id digest
      · subst hone
        by_cases hyx : y = x
        · rw [if_pos hyx, hfile, hyx, share, if_pos haccepts]
        · have hrefuses : ¬ r.Accepts (call.id digest) y := fun hay =>
            hyx (accepts_unique hy hx hay haccepts)
          rw [if_neg hyx, share, share, if_neg hrefuses, if_neg hrefuses]
      · by_cases hyx : y = x
        · rw [if_pos hyx, onMap_of_ne hone, hyx, share, share, onMap_of_ne hone]
        · rw [if_neg hyx, share, share, onMap_of_ne hone]
    rw [hshare]
    by_cases hyx : y = x
    · rw [if_pos hyx, hyx, Function.update_self]
      exact hholds
    · rw [if_neg hyx, Function.update_of_ne hyx]
      exact h y hy
  · rw [if_neg haccepts]
    rw [onRecords_of_refuses (refuses_of_not_accepts hx haccepts)] at hsame hholds
    refine ⟨hsame, fun y hy => ?_⟩
    by_cases hyx : y = x
    · rw [hyx, Function.update_self]
      exact hholds
    · rw [Function.update_of_ne hyx]
      exact h y hy

/-- **A ring is one map.** Any sequence of calls, each at any server, has the outcomes of one map
that keeps its values, as long as the files are not larger than the transport reads back. -/
theorem ring_history (P : TaggedStruct.TProtocol) (T : FileTransport) (digest : Digest)
    (r : LinkedRing) {calls : List (NodeID × Call)}
    (hcalls : ∀ c ∈ calls, c.1 ∈ r.lst ∧ c.2.Fits (encoded P T) digest)
    {disks : NodeID → Disk} {store : Str → Option RFile} (h : r.Shared P T disks store) :
    (outcomes (r.onServer P T digest) calls disks).1
        = (outcomes (r.onOneMap digest) calls store).1 ∧
      r.Shared P T (outcomes (r.onServer P T digest) calls disks).2
        (outcomes (r.onOneMap digest) calls store).2 :=
  outcomes_related
    (fun c hc _ _ hshared => hshared.call digest (hcalls c hc).1 (hcalls c hc).2) h

end LinkedRing

/-- A file is written at one of two servers and read at both. -/
def notesAtBoth : List (NodeID × Call) :=
  [(localNode 9091, .writeFile (FileStoreHandler.note "notes" "bob" "x")),
    (localNode 9090, .readFile (str "notes") (str "bob")),
    (localNode 9091, .readFile (str "notes") (str "bob"))]

theorem ring_history_pair :
    (outcomes (localLinked.onServer TaggedStruct.binaryProtocol eventTransport localDigest)
        notesAtBoth fun _ _ => none).1
      = (outcomes (localLinked.onOneMap localDigest) notesAtBoth fun _ => none).1 := by
  refine (LinkedRing.ring_history TaggedStruct.binaryProtocol eventTransport localDigest
    localLinked ?_ ?_).1
  · intro c hc
    simp only [notesAtBoth, List.mem_cons, List.not_mem_nil, or_false] at hc
    rcases hc with rfl | rfl | rfl
    · refine ⟨List.mem_cons_self, write_kept _ ?_ (by decide)⟩
      apply FileStoreHandler.note_fits <;> decide
    · exact ⟨List.mem_cons_of_mem _ List.mem_cons_self, fun rFile h => (by cases h)⟩
    · exact ⟨List.mem_cons_self, fun rFile h => (by cases h)⟩
  · intro x hx id
    simp [LinkedRing.share]

end Cs457.Chord
