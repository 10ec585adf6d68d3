import Cs457.Kv.Log
import Cs457.Lib.LastWriter

/-!
# Key-value store — the replica

`Replica` holds the newest element of each of 256 keys. `write` looks whether its element is
newer than the held one and, if so, hands a record to the log; only the log's task, which
appends the record and flushes, looks again and stores the element. The constructor posts a
task that replays the log through `write`.
-/

namespace Cs457.Kv

/-- `Replica::storage_element`. -/
structure Element where
  data : String
  timestamp : Timestamp
  deriving DecidableEq, Repr

/-- `m_store`, whose keys are below 256. -/
abbrev Store := UInt32 → Option Element

/-- A record of the replica log replaces the element of its key when it is newer. -/
def storeRegister : Register DoWrite UInt32 Element Timestamp where
  key := DoWrite.key
  entry msg := ⟨msg.val, msg.timestamp⟩
  time := Element.timestamp

/-- The closures posted to the strand of the replica's log. -/
inductive LogTask where
  | update (msg : DoWrite)
  | replay
  deriving DecidableEq, Repr

structure Replica where
  store : Store := fun _ => none
  file : List UInt8
  strand : List LogTask

namespace Replica

/-- The constructor: the store is empty and the log is to be replayed. -/
def create (file : List UInt8) : Replica := { file := file, strand := [.replay] }

def read (r : Replica) (key : UInt32) : Except Fault (Option Element) :=
  if key < 256 then .ok (r.store key) else .error .outOfBounds

/-- `current && timestamp <= current->timestamp`. -/
def stale (current : Option Element) (timestamp : Timestamp) : Bool :=
  match current with
  | some e => timestamp ≤ e.timestamp
  | none => false

/-- The record that `write` logs: its uuid is not set. -/
def logRecord (key : UInt32) (data : String) (timestamp : Timestamp) : DoWrite :=
  ⟨"", key, timestamp, data⟩

def write (r : Replica) (key : UInt32) (data : String) (timestamp : Timestamp) :
    Except Fault Replica := do
  let current ← r.read key
  if stale current timestamp then return r
  -- the store is changed by the log's task only
  return { r with strand := r.strand ++ [.update (logRecord key data timestamp)] }

/-- `replay_handler`. -/
def replayHandler (r : Replica) (msg : DoWrite) : Except Fault Replica :=
  r.write msg.key msg.val msg.timestamp

/-- The task of `write_update`: the record is appended and flushed, then the handler of
`write` stores the element unless a newer one has arrived. -/
def updateTask (codec : Codec DoWrite) (r : Replica) (msg : DoWrite) : Replica :=
  { r with
    file := r.file ++ Log.record codec msg
    store := if stale (r.store msg.key) msg.timestamp then r.store
      else Function.update r.store msg.key (some ⟨msg.val, msg.timestamp⟩) }

/-- The task of `replay_log`. -/
def replayTask (codec : Codec DoWrite) (r : Replica) : Except Fault Replica :=
  (Log.replay codec r.file).foldlM replayHandler r

def perform (codec : Codec DoWrite) (r : Replica) : LogTask → Except Fault Replica
  | .update msg => .ok (r.updateTask codec msg)
  | .replay => r.replayTask codec

/-- The next task of the log's strand. -/
def runTask (codec : Codec DoWrite) (r : Replica) : Option Replica :=
  match r.strand with
  | [] => none
  | t :: rest => ({ r with strand := rest }.perform codec t).toOption

/-! ## The store as a last-writer-wins register -/

/-- A write is stale when the store covers it. -/
theorem stale_iff (store : Store) (msg : DoWrite) :
    stale (store msg.key) msg.timestamp = true ↔ storeRegister.Covers store msg := by
  unfold stale Register.Covers
  cases h : store msg.key with
  | none => simp [storeRegister, h]
  | some e => simp [storeRegister, Register.stamp, h]

/-- The log task is the register's `put`. -/
theorem updateTask_store (codec : Codec DoWrite) (r : Replica) (msg : DoWrite) :
    (r.updateTask codec msg).store = storeRegister.put r.store msg := by
  simp only [updateTask, Register.put, ← stale_iff]
  rfl

/-- **What `write` does.** It drops a write that the store covers and queues the record of
any other; the store and the file are as before. -/
theorem write_ok {r r' : Replica} {key : UInt32} {data : String} {timestamp : Timestamp}
    (h : r.write key data timestamp = .ok r') :
    key < 256 ∧
      ((storeRegister.Covers r.store (logRecord key data timestamp) ∧ r' = r) ∨
        (¬ storeRegister.Covers r.store (logRecord key data timestamp) ∧
          r' = { r with strand := r.strand ++ [.update (logRecord key data timestamp)] })) := by
  unfold write read at h
  by_cases hkey : key < 256
  · rw [if_pos hkey] at h
    refine ⟨hkey, ?_⟩
    have hstale := stale_iff r.store (logRecord key data timestamp)
    simp only [logRecord] at hstale ⊢
    rw [← hstale]
    -- the early return, or the record for the log
    by_cases hs : stale (r.store key) timestamp = true
    · simp only [bind, Except.bind, hs, if_true] at h
      exact Or.inl ⟨hs, (Except.ok.inj h).symm⟩
    · simp only [bind, Except.bind, hs] at h
      exact Or.inr ⟨hs, (Except.ok.inj h).symm⟩
  · rw [if_neg hkey] at h
    cases h

/-- A key below 256 can be written. -/
theorem write_of_lt {r : Replica} {key : UInt32} (hkey : key < 256) (data : String)
    (timestamp : Timestamp) : ∃ r', r.write key data timestamp = .ok r' := by
  unfold write read
  rw [if_pos hkey]
  simp only [bind, Except.bind]
  split
  · exact ⟨_, rfl⟩
  · exact ⟨_, rfl⟩

/-- A task is taken off the strand before it runs. -/
theorem runTask_eq_some {codec : Codec DoWrite} {r r' : Replica} (h : r.runTask codec = some r') :
    ∃ t rest, r.strand = t :: rest ∧ ({ r with strand := rest } : Replica).perform codec t
      = .ok r' := by
  unfold runTask at h
  split at h
  · cases h
  · next t rest hstrand =>
    refine ⟨t, rest, hstrand, ?_⟩
    cases hp : ({ r with strand := rest } : Replica).perform codec t with
    | error f =>
      rw [hp] at h
      cases h
    | ok x =>
      rw [hp] at h
      exact congrArg _ (Option.some.inj h)

/-- **What a replay does.** In an empty store nothing is covered, so every record of the log
is queued to be logged again. -/
theorem replay_queues {msgs : List DoWrite} (hkeys : ∀ m ∈ msgs, m.key < 256) {r : Replica}
    (hempty : r.store = fun _ => none) :
    msgs.foldlM replayHandler r = .ok { r with
      strand := r.strand ++ msgs.map fun m => .update (logRecord m.key m.val m.timestamp) } := by
  induction msgs generalizing r with
  | nil => simp [pure, Except.pure]
  | cons m msgs ih =>
    -- the store stays empty while the records are queued
    have hread : r.read m.key = .ok none := by
      rw [read, if_pos (hkeys m List.mem_cons_self), hempty]
    have hm : r.replayHandler m = .ok { r with
        strand := r.strand ++ [.update (logRecord m.key m.val m.timestamp)] } := by
      simp only [replayHandler, write, hread, bind, Except.bind, stale]
      rfl
    have htail := ih (fun x hx => hkeys x (List.mem_cons_of_mem m hx)) (r := { r with
      strand := r.strand ++ [.update (logRecord m.key m.val m.timestamp)] }) hempty
    rw [List.foldlM_cons, hm]
    simp only [bind, Except.bind]
    rw [htail, List.append_assoc, List.map_cons, List.singleton_append]

end Replica

end Cs457.Kv
