import Cs457.Bank.Snapshot

/-!
# Bank — a snapshot over its life

What `Snapshot` does on a sequence of calls from outside, known peer or not. The exceptions
that `record_tx` and `marker` swallow leave no trace, so that the state of a peer is told by
the calls with its name: the amounts up to its first marker, and whether there is one.

* **`lookup_calls`** — the state of a peer after a sequence of calls.
* **`toMessage_calls`** — what `to_message` reports.
-/

namespace Cs457.Bank

inductive SnapshotCall where
  | recordTx (sender : Name) (amount : UInt64)
  | marker (sender : Name)
  deriving DecidableEq, Repr

namespace Snapshot

def call (s : Snapshot) : SnapshotCall → Snapshot
  | .recordTx sender amount => s.recordTx sender amount
  | .marker sender => s.marker sender

def calls (s : Snapshot) (cs : List SnapshotCall) : Snapshot := cs.foldl call s

/-- The amounts recorded for a peer before its first marker. -/
def preMarker (x : Name) : List SnapshotCall → List UInt64
  | [] => []
  | .recordTx sender amount :: cs =>
    if sender = x then amount :: preMarker x cs else preMarker x cs
  | .marker sender :: cs => if sender = x then [] else preMarker x cs

/-- The amounts summed up from a start, as `transferred += amount` does. -/
def addTo (start : UInt64) (amounts : List UInt64) : UInt64 := amounts.foldl (· + ·) start

/-- **Sums wrap.** -/
theorem toNat_addTo (start : UInt64) (amounts : List UInt64) :
    (addTo start amounts).toNat = (start.toNat + (amounts.map UInt64.toNat).sum) % 2 ^ 64 := by
  induction amounts generalizing start with
  | nil =>
    rw [List.map_nil, List.sum_nil, Nat.add_zero, Nat.mod_eq_of_lt start.toNat_lt]
    rfl
  | cons a amounts ih =>
    show (addTo (start + a) amounts).toNat = _
    rw [ih, UInt64.toNat_add, List.map_cons, List.sum_cons, Nat.mod_add_mod, Nat.add_assoc]

/-- What a sequence of calls makes of the state of a peer. -/
def after (x : Name) (cs : List SnapshotCall) : VarState → VarState
  | .recording t =>
    if .marker x ∈ cs then .completed (addTo t (preMarker x cs))
    else .recording (addTo t (preMarker x cs))
  | v => v

/-- Without calls a channel stays as it is. -/
theorem after_nil (x : Name) (v : VarState) : after x [] v = v := by
  cases v with
  | recording t =>
    unfold after
    exact if_neg List.not_mem_nil
  | _ => rfl

theorem calls_id (s : Snapshot) (cs : List SnapshotCall) : (s.calls cs).id = s.id := by
  induction cs generalizing s with
  | nil => rfl
  | cons c cs ih =>
    show ((s.call c).calls cs).id = s.id
    rw [ih]
    cases c with
    | recordTx sender amount => exact recordTx_id s sender amount
    | marker sender => exact marker_id s sender

theorem calls_balance (s : Snapshot) (cs : List SnapshotCall) :
    (s.calls cs).balance = s.balance := by
  induction cs generalizing s with
  | nil => rfl
  | cons c cs ih =>
    show ((s.call c).calls cs).balance = s.balance
    rw [ih]
    cases c with
    | recordTx sender amount => exact recordTx_balance s sender amount
    | marker sender => exact marker_balance s sender

/-- One call, and those behind it. -/
theorem lookup_call (s : Snapshot) (c : SnapshotCall) (cs : List SnapshotCall) (x : Name) :
    ((s.call c).states.lookup x).map (after x cs)
      = (s.states.lookup x).map (after x (c :: cs)) := by
  cases c with
  | recordTx sender amount =>
    show ((s.recordTx sender amount).states.lookup x).map (after x cs) = _
    rw [lookup_recordTx, Option.map_map]
    congr 1
    funext v
    cases v with
    | recording t =>
      -- only a call with the name of the peer changes its state
      by_cases hx : x = sender
      · simp [after, preMarker, addTo, hx]
      · simp [after, preMarker, hx, Ne.symm hx]
    | _ => rfl
  | marker sender =>
    show ((s.marker sender).states.lookup x).map (after x cs) = _
    rw [lookup_marker, Option.map_map]
    congr 1
    funext v
    cases v with
    | recording t =>
      by_cases hx : x = sender
      · simp [after, preMarker, addTo, hx]
      · simp [after, preMarker, hx, Ne.symm hx]
    | _ => rfl

/-- **The state of a peer.** Induction on the calls. -/
theorem lookup_calls (s : Snapshot) (cs : List SnapshotCall) (x : Name) :
    (s.calls cs).states.lookup x = (s.states.lookup x).map (after x cs) := by
  induction cs generalizing s with
  | nil =>
    rw [show after x [] = fun v => v from funext (after_nil x), Option.map_id']
    rfl
  | cons c cs ih =>
    show ((s.call c).calls cs).states.lookup x = _
    rw [ih, lookup_call]

/-- The state of a peer of a new snapshot. -/
theorem lookup_create_calls (id balance : UInt64) (peers : List PeerInfo) (cs : List SnapshotCall)
    (x : Name) : ((create id balance peers).calls cs).states.lookup x =
      if x ∈ peers.map PeerInfo.name then some (after x cs (.recording 0)) else none := by
  rw [lookup_calls, lookup_create]
  split <;> rfl

/-- A channel is complete once its Marker has come, with the sum of the Transfers before it. -/
theorem after_eq_completed_iff (x : Name) (cs : List SnapshotCall) (sum : UInt64) :
    after x cs (.recording 0) = .completed sum ↔
      .marker x ∈ cs ∧ sum = addTo 0 (preMarker x cs) := by
  show (if SnapshotCall.marker x ∈ cs then VarState.completed (addTo 0 (preMarker x cs))
    else .recording (addTo 0 (preMarker x cs))) = .completed sum ↔ _
  split
  · next hmarked => simp [hmarked, eq_comm]
  · next hmarked => simp [hmarked]

/-- **A snapshot reports the Transfers before the markers.** `to_message` succeeds exactly when
every peer has had its marker, and then has the id, the balance, and one row for each peer, with
the amounts recorded before its first marker. -/
theorem toMessage_calls (id balance : UInt64) (peers : List PeerInfo) (cs : List SnapshotCall) :
    ((∃ msg, ((create id balance peers).calls cs).toMessage = .ok msg) ↔
      ∀ p ∈ peers, .marker p.name ∈ cs) ∧
    ∀ msg, ((create id balance peers).calls cs).toMessage = .ok msg →
      msg.localSnapshot.snapshotId = id ∧ msg.localSnapshot.balance = balance ∧
      (msg.localSnapshot.channelState.map ChannelState.name).Nodup ∧
      (∀ x, x ∈ msg.localSnapshot.channelState.map ChannelState.name ↔
        x ∈ peers.map PeerInfo.name) ∧
      ∀ row ∈ msg.localSnapshot.channelState,
        row.inTransit.toNat = ((preMarker row.name cs).map UInt64.toNat).sum % 2 ^ 64 := by
  have hlookup := lookup_create_calls id balance peers cs
  -- `to_message` wants all rows completed, and a row is completed by its first marker
  have hsucceeds : (∃ msg, ((create id balance peers).calls cs).toMessage = .ok msg) ↔
      ∀ p ∈ peers, .marker p.name ∈ cs := by
    rw [exists_toMessage_iff]
    constructor
    · intro hall p hp
      have hmem : p.name ∈ peers.map PeerInfo.name := List.mem_map_of_mem hp
      obtain ⟨sum, hsum⟩ := hall p.name _ ((hlookup p.name).trans (if_pos hmem))
      exact ((after_eq_completed_iff _ _ _).mp hsum).1
    · intro hall x v hv
      rw [hlookup] at hv
      split at hv
      · next hmem =>
        obtain ⟨p, hp, rfl⟩ := List.mem_map.mp hmem
        cases hv
        exact ⟨_, (after_eq_completed_iff _ _ _).mpr ⟨hall p hp, rfl⟩⟩
      · cases hv
  refine ⟨hsucceeds, fun msg hmsg => ?_⟩
  obtain ⟨hid, hbalance, -⟩ := toMessage_ok hmsg
  have hmarked := hsucceeds.mp ⟨msg, hmsg⟩
  refine ⟨hid.trans (calls_id _ cs), hbalance.trans (calls_balance _ cs), names_nodup hmsg,
    fun x => ?_, fun row hrow => ?_⟩
  · constructor
    · intro hx
      obtain ⟨row, hrow, rfl⟩ := List.mem_map.mp hx
      have hrow' := (mem_channelState_iff hmsg row).mp hrow
      rw [hlookup] at hrow'
      split at hrow'
      · next hmem => exact hmem
      · cases hrow'
    · intro hx
      obtain ⟨p, hp, rfl⟩ := List.mem_map.mp hx
      have hcompleted := (after_eq_completed_iff p.name cs _).mpr ⟨hmarked p hp, rfl⟩
      have hrow := (mem_channelState_iff hmsg ⟨p.name, addTo 0 (preMarker p.name cs)⟩).mpr
        (by rw [hlookup, if_pos hx, hcompleted])
      exact List.mem_map.mpr ⟨_, hrow, rfl⟩
  · have hrow' := (mem_channelState_iff hmsg row).mp hrow
    rw [hlookup] at hrow'
    split at hrow'
    · rw [((after_eq_completed_iff _ _ _).mp (Option.some.inj hrow')).2, toNat_addTo]
      simp
    · cases hrow'

end Snapshot

end Cs457.Bank
