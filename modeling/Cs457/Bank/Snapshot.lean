import Cs457.Bank.Message
import Cs457.Lib.UnorderedMap

/-!
# Bank — the local snapshot

`Snapshot` keeps one state per known peer: recording until the peer's marker arrives, then
completed. `record_tx` and `marker` swallow the exceptions that an unknown name or a repeated
marker raises, so both are total here; `to_message` throws while a peer is still recording.
-/

namespace Cs457.Bank

/-- `Snapshot::varstate`. -/
inductive VarState where
  | empty
  | recording (transferred : UInt64)
  | completed (transferred : UInt64)
  deriving DecidableEq, Repr

structure Snapshot where
  states : UnorderedMap Name VarState
  id : UInt64
  balance : UInt64

namespace Snapshot

/-- The constructor: every peer starts out recording nothing. -/
def create (id balance : UInt64) (peers : List PeerInfo) : Snapshot where
  states := peers.foldl (fun m e => m.emplace e.name (.recording 0)) ∅
  id := id
  balance := balance

/-- `record_tx`: only a recording peer counts the amount. -/
def recordTx (s : Snapshot) (sender : Name) (amount : UInt64) : Snapshot :=
  match s.states.lookup sender with
  | some (.recording t) => { s with states := s.states.insert sender (.recording (t + amount)) }
  | _ => s

/-- `marker`: a recording peer is completed, anything else is left as it was. -/
def marker (s : Snapshot) (sender : Name) : Snapshot :=
  match s.states.lookup sender with
  | some (.recording t) => { s with states := s.states.insert sender (.completed t) }
  | _ => s

/-- The rows of `to_message`: `std::get<CompletedState>` throws on the other alternatives. -/
def channelStates : List (Sigma fun _ : Name => VarState) → Except Fault (List ChannelState)
  | [] => .ok []
  | ⟨name, .completed t⟩ :: l => (channelStates l).map (⟨name, t⟩ :: ·)
  | ⟨_, _⟩ :: _ => .error .badVariantAccess

def toMessage (s : Snapshot) : Except Fault ReturnSnapshot :=
  (channelStates s.states.entries).map fun rows => ⟨⟨s.id, s.balance, rows⟩, ""⟩

/-! ## What the operations do to each peer -/

@[simp] theorem create_id (id balance : UInt64) (peers : List PeerInfo) :
    (create id balance peers).id = id := rfl

@[simp] theorem create_balance (id balance : UInt64) (peers : List PeerInfo) :
    (create id balance peers).balance = balance := rfl

theorem recordTx_id (s : Snapshot) (sender : Name) (amount : UInt64) :
    (s.recordTx sender amount).id = s.id := by
  unfold recordTx
  split <;> rfl

theorem recordTx_balance (s : Snapshot) (sender : Name) (amount : UInt64) :
    (s.recordTx sender amount).balance = s.balance := by
  unfold recordTx
  split <;> rfl

theorem marker_id (s : Snapshot) (sender : Name) : (s.marker sender).id = s.id := by
  unfold marker
  split <;> rfl

theorem marker_balance (s : Snapshot) (sender : Name) :
    (s.marker sender).balance = s.balance := by
  unfold marker
  split <;> rfl

/-- A new snapshot records the channels of all peers, from zero. -/
theorem lookup_create (id balance : UInt64) (peers : List PeerInfo) (x : Name) :
    (create id balance peers).states.lookup x
      = if x ∈ peers.map PeerInfo.name then some (.recording 0) else none := by
  -- the fold over the peers is a fold over their names
  have hfold : (create id balance peers).states
      = (peers.map PeerInfo.name).foldl (fun m name => m.emplace name (.recording 0)) ∅ := by
    rw [List.foldl_map, create]
  rw [hfold, UnorderedMap.lookup_foldl_emplace, AList.lookup_empty, Option.none_or]

/-- `record_tx` adds the amount to the sender's channel while it is recording. -/
theorem lookup_recordTx (s : Snapshot) (sender x : Name) (amount : UInt64) :
    (s.recordTx sender amount).states.lookup x
      = (s.states.lookup x).map fun v => match v with
        | .recording t => if x = sender then .recording (t + amount) else .recording t
        | v => v := by
  by_cases hx : x = sender
  · subst hx
    unfold recordTx
    cases h : s.states.lookup x with
    | none => simp [h]
    | some v => cases v <;> simp [h]
  · have hlook : (s.recordTx sender amount).states.lookup x = s.states.lookup x := by
      unfold recordTx
      split
      · exact AList.lookup_insert_ne hx
      · rfl
    rw [hlook]
    cases h : s.states.lookup x with
    | none => rfl
    | some v => cases v <;> simp [hx]

/-- `marker` completes the sender's channel with what it has recorded. -/
theorem lookup_marker (s : Snapshot) (sender x : Name) :
    (s.marker sender).states.lookup x
      = (s.states.lookup x).map fun v => match v with
        | .recording t => if x = sender then .completed t else .recording t
        | v => v := by
  by_cases hx : x = sender
  · subst hx
    unfold marker
    cases h : s.states.lookup x with
    | none => simp [h]
    | some v => cases v <;> simp [h]
  · have hlook : (s.marker sender).states.lookup x = s.states.lookup x := by
      unfold marker
      split
      · exact AList.lookup_insert_ne hx
      · rfl
    rw [hlook]
    cases h : s.states.lookup x with
    | none => rfl
    | some v => cases v <;> simp [hx]

/-! ## Complete snapshots -/

/-- `to_message` succeeds only on completed peers, and lists each with its amount. -/
theorem eq_of_channelStates {l : List (Sigma fun _ : Name => VarState)}
    {rows : List ChannelState} (h : channelStates l = .ok rows) :
    l = rows.map fun r => ⟨r.name, .completed r.inTransit⟩ := by
  induction l generalizing rows with
  | nil =>
    cases h
    rfl
  | cons e l ih =>
    obtain ⟨k, v⟩ := e
    cases v with
    | empty => cases h
    | recording t => cases h
    | completed t =>
      cases hl : channelStates l with
      | error f =>
        rw [channelStates, hl] at h
        cases h
      | ok tail =>
        rw [channelStates, hl] at h
        cases h
        rw [ih hl]
        rfl

/-- When every channel is complete, `to_message` finds a value in each. -/
theorem channelStates_of_completed {l : List (Sigma fun _ : Name => VarState)}
    (h : ∀ e ∈ l, ∃ t, e.2 = .completed t) : ∃ rows, channelStates l = .ok rows := by
  induction l with
  | nil => exact ⟨[], rfl⟩
  | cons e l ih =>
    obtain ⟨k, v⟩ := e
    obtain ⟨t, rfl⟩ := h _ List.mem_cons_self
    obtain ⟨rows, hrows⟩ := ih fun x hx => h x (List.mem_cons_of_mem _ hx)
    exact ⟨⟨k, t⟩ :: rows, by rw [channelStates, hrows]; rfl⟩

/-- A message read off a complete snapshot: its balance, and one completed row per peer. -/
theorem toMessage_ok {s : Snapshot} {msg : ReturnSnapshot} (h : s.toMessage = .ok msg) :
    msg.localSnapshot.snapshotId = s.id ∧ msg.localSnapshot.balance = s.balance ∧
      s.states.entries = msg.localSnapshot.channelState.map
        fun r => ⟨r.name, .completed r.inTransit⟩ := by
  unfold toMessage at h
  cases hrows : channelStates s.states.entries with
  | error f =>
    rw [hrows] at h
    cases h
  | ok rows =>
    rw [hrows] at h
    cases h
    exact ⟨rfl, rfl, eq_of_channelStates hrows⟩

/-- **`to_message` succeeds** exactly when every peer is completed. -/
theorem exists_toMessage_iff (s : Snapshot) :
    (∃ msg, s.toMessage = .ok msg) ↔
      ∀ x v, s.states.lookup x = some v → ∃ t, v = .completed t := by
  constructor
  · rintro ⟨msg, hmsg⟩ x v hv
    obtain ⟨-, -, hentries⟩ := toMessage_ok hmsg
    have hentry : (⟨x, v⟩ : Sigma fun _ : Name => VarState) ∈ s.states.entries :=
      AList.mem_lookup_iff.mp hv
    rw [hentries] at hentry
    obtain ⟨row, -, hrow⟩ := List.mem_map.mp hentry
    cases hrow
    exact ⟨row.inTransit, rfl⟩
  · intro hall
    obtain ⟨rows, hrows⟩ := channelStates_of_completed (l := s.states.entries) fun e he =>
      hall e.1 e.2 (UnorderedMap.lookup_of_mem_entries he)
    exact ⟨_, by rw [toMessage, hrows]; rfl⟩

/-- A row of the message is the state of a completed peer. -/
theorem mem_channelState_iff {s : Snapshot} {msg : ReturnSnapshot} (h : s.toMessage = .ok msg)
    (row : ChannelState) : row ∈ msg.localSnapshot.channelState ↔
      s.states.lookup row.name = some (.completed row.inTransit) := by
  obtain ⟨-, -, hentries⟩ := toMessage_ok h
  have hlookup : s.states.lookup row.name = some (.completed row.inTransit) ↔
      (⟨row.name, .completed row.inTransit⟩ : Sigma fun _ : Name => VarState) ∈ s.states.entries :=
    AList.mem_lookup_iff
  rw [hlookup, hentries, List.mem_map]
  constructor
  · exact fun hrow => ⟨row, hrow, rfl⟩
  · rintro ⟨row', hrow', heq⟩
    cases row
    cases row'
    cases heq
    exact hrow'

/-- No peer has two rows. -/
theorem names_nodup {s : Snapshot} {msg : ReturnSnapshot} (h : s.toMessage = .ok msg) :
    (msg.localSnapshot.channelState.map ChannelState.name).Nodup := by
  obtain ⟨-, -, hentries⟩ := toMessage_ok h
  have hkeys : s.states.keys = msg.localSnapshot.channelState.map ChannelState.name := by
    rw [AList.keys, List.keys, hentries, List.map_map]
    rfl
  exact hkeys ▸ s.states.keys_nodup

end Snapshot

end Cs457.Bank
