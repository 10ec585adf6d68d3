import Cs457.Kv.Log
import Cs457.Lib.Transition

/-!
# Key-value store — the log and its strand

The calls of a log come from its owner; the tasks that `write_update` and `replay_log` post run
later, one after the other, on the log's strand. `clear` empties the file at once. Whenever the
tasks run, what they amount to is what they do when all of them run at the end.

* **`drain_step`** — running a task now or at the end makes no difference.
* **`replay_round_trip`** — what is written after `clear` is replayed.
-/

namespace Cs457.Kv.Log

open Transition

/-- The closures posted to `m_strand`. -/
inductive Task (M : Type) where
  | write (msg : M)
  | replay
  deriving DecidableEq, Repr

/-- A call of a handler: that of a `write_update`, or that of a `replay_log`. -/
inductive Event (M : Type) where
  | written
  | replayed (msg : M)
  deriving DecidableEq, Repr

inductive Action (M : Type) where
  | clear
  | writeUpdate (msg : M)
  | replayLog
  /-- the next task of `m_strand` runs -/
  | run
  deriving DecidableEq, Repr

structure State (M : Type) where
  file : List UInt8
  strand : List (Task M) := []
  events : List (Event M) := []
  deriving DecidableEq, Repr

variable {M : Type}

/-- The constructor: an existing file is appended to. -/
def create (file : List UInt8) : State M := { file := file }

def perform (codec : Codec M) (s : State M) : Task M → State M
  -- the record is appended, then the handler is called
  | .write msg => { s with
      file := s.file ++ record codec msg
      events := s.events ++ [.written] }
  | .replay => { s with events := s.events ++ (replay codec s.file).map .replayed }

def step (codec : Codec M) (s : State M) : Action M → Option (State M)
  | .clear => some { s with file := [] }
  | .writeUpdate msg => some { s with strand := s.strand ++ [.write msg] }
  | .replayLog => some { s with strand := s.strand ++ [.replay] }
  | .run =>
    match s.strand with
    | [] => none
    | t :: rest => some (perform codec { s with strand := rest } t)

/-! ## All tasks at the end -/

/-- The state once all posted tasks have run. -/
def drain (codec : Codec M) (s : State M) : State M :=
  s.strand.foldl (perform codec) { s with strand := [] }

/-- The task that a call posts. -/
def Action.task : Action M → Option (Task M)
  | .writeUpdate msg => some (.write msg)
  | .replayLog => some .replay
  | _ => none

/-- A call of the owner, in contrast to a task that runs. -/
def Action.isCall : Action M → Bool
  | .run => false
  | _ => true

variable {codec : Codec M}

/-- A task does not look at the tasks behind it. -/
theorem perform_strand (s : State M) (strand : List (Task M)) (t : Task M) :
    perform codec { s with strand := strand } t = { perform codec s t with strand := strand } := by
  cases t <;> rfl

/-- **A task may run at any time.** -/
theorem drain_step {s s' : State M} {a : Action M} (hclear : a ≠ .clear)
    (h : step codec s a = some s') :
    drain codec s' = a.task.toList.foldl (perform codec) (drain codec s) := by
  cases a with
  | clear => exact absurd rfl hclear
  | writeUpdate msg =>
    cases h
    -- the new task is the last to run
    exact List.foldl_append
  | replayLog =>
    cases h
    exact List.foldl_append
  | run =>
    simp only [step] at h
    split at h
    · cases h
    · next t rest hstrand =>
      cases h
      show (perform codec { s with strand := rest } t).strand.foldl (perform codec)
        { perform codec { s with strand := rest } t with strand := [] } = drain codec s
      rw [drain, hstrand, List.foldl_cons]
      cases t <;> rfl

/-- The tasks that are posted in the course of a run. -/
theorem drain_exec {s s' : State M} {acts : List (Action M)} (hclear : .clear ∉ acts)
    (h : exec (step codec) s acts = some s') :
    drain codec s' = (acts.filterMap Action.task).foldl (perform codec) (drain codec s) := by
  induction acts generalizing s with
  | nil =>
    cases h
    rfl
  | cons a acts ih =>
    obtain ⟨m, hm, hrest⟩ := exec_cons.mp h
    obtain ⟨ha, hacts⟩ := not_or.mp fun hmem => hclear (List.mem_cons.mpr hmem)
    rw [ih hacts hrest, drain_step (Ne.symm ha) hm, ← List.foldl_append]
    congr 1
    cases a <;> rfl

/-- The strand runs empty. -/
theorem exec_drain (s : State M) :
    exec (step codec) s (List.replicate s.strand.length .run) = some (drain codec s) := by
  -- induction on the strand: the first task runs, which leaves the final state the same
  induction hstrand : s.strand generalizing s with
  | nil =>
    rw [drain, hstrand]
    cases s
    cases hstrand
    rfl
  | cons t rest ih =>
    have hrun : step codec s .run = some (perform codec { s with strand := rest } t) := by
      simp only [step, hstrand]
    have hnext : (perform codec { s with strand := rest } t).strand = rest := by
      rw [perform_strand]
    rw [List.length_cons, List.replicate_succ, exec, hrun, Option.bind_some, ih _ hnext,
      drain_step (fun h => (by cases h)) hrun]
    rfl

/-! ## The round trip -/

/-- The tasks of `write_update` make a file of records. -/
theorem foldl_write (s : State M) (msgs : List M) :
    (msgs.map Task.write).foldl (perform codec) s = { s with
      file := s.file ++ records codec msgs
      events := s.events ++ List.replicate msgs.length .written } := by
  induction msgs generalizing s with
  | nil => simp [records]
  | cons m msgs ih =>
    rw [List.map_cons, List.foldl_cons, ih]
    simp only [perform, records_cons, List.append_assoc, List.length_cons, List.replicate_succ,
      List.singleton_append]

/-- Only calls post tasks. -/
theorem filterMap_task (acts : List (Action M)) :
    acts.filterMap Action.task = (acts.filter Action.isCall).filterMap Action.task := by
  rw [List.filterMap_filter]
  exact List.filterMap_congr fun a _ => by cases a <;> rfl

/-- **The log round trip.** After `clear`, a `write_update` for each message and a `replay_log`,
with tasks running in between or not, the rest of the tasks completes the writes and then calls
the handler of `replay_log` on the messages, each once and in order. -/
theorem replay_round_trip (codec : Codec M) (file : List UInt8) {msgs : List M}
    (hmsgs : ∀ m ∈ msgs, codec.Fits m) {acts : List (Action M)}
    (hcalls : acts.filter Action.isCall = msgs.map .writeUpdate ++ [.replayLog]) {s : State M}
    (hrun : exec (step codec) (create file) (.clear :: acts) = some s) :
    exec (step codec) s (List.replicate s.strand.length .run) = some {
      file := records codec msgs
      strand := []
      events := List.replicate msgs.length .written ++ msgs.map .replayed } := by
  obtain ⟨cleared, hcleared, hrest⟩ := exec_cons.mp hrun
  cases hcleared
  -- `clear` is a call, and the calls after the first are the others
  have hclear : .clear ∉ acts := by
    intro hmem
    have hcall : (Action.clear : Action M).isCall = true := rfl
    have hfilter := List.mem_filter.mpr ⟨hmem, hcall⟩
    rw [hcalls] at hfilter
    simp at hfilter
  have htasks : acts.filterMap Action.task = msgs.map .write ++ [.replay] := by
    have hwrites : (msgs.map Action.writeUpdate).filterMap Action.task = msgs.map .write := by
      rw [List.filterMap_map]
      exact congrFun List.filterMap_eq_map msgs
    rw [filterMap_task, hcalls, List.filterMap_append, hwrites]
    rfl
  rw [exec_drain, drain_exec hclear hrest, htasks, List.foldl_append, foldl_write]
  simp only [drain, create, List.foldl_nil, List.foldl_cons, perform, List.nil_append,
    replay_records hmsgs]

theorem replay_round_trip_hint :
    exec (step hintCodec) ⟨record hintCodec (.addHint 1 200), [.replay], [.written]⟩
        (List.replicate 1 .run) =
      some ⟨records hintCodec [.addHint 1 200], [], List.replicate 1 .written ++
        [HintMessage.addHint 1 200].map .replayed⟩ := by
  have hmsgs : ∀ m ∈ [HintMessage.addHint 1 200], hintCodec.Fits m := by
    simpa using hintCodec_fits
  have hcalls : [Action.writeUpdate (HintMessage.addHint 1 200), .run, .replayLog].filter
      Action.isCall = [HintMessage.addHint 1 200].map .writeUpdate ++ [.replayLog] := rfl
  exact replay_round_trip hintCodec [] hmsgs hcalls rfl

end Cs457.Kv.Log
