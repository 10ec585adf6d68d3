import Cs457.Kv.Replica
import Cs457.Lib.Transition
import Mathlib.Data.List.Infix
import Mathlib.Logic.Equiv.List

/-!
# Key-value store — runs of a replica and its log

A process constructs a `Replica` on the log it finds, runs the tasks of the log's strand and
serves calls of `write` from anywhere in the server; it may stop when the strand is empty and
be started again on the file it left.

* **`Fresh`**, **`Running`** — the two phases of a process: before and after the replay task.
  A running process has appended some records and queued others, and together they begin with
  the records it found, because the replay queued all of these first.
* **`Running.run`** — runs without a restart.
* **`log_agrees_with_store`** — the store is the fold of the records appended, and a restart
  brings it back.
* **`restarts_iff`** — every restart doubles the log.
-/

namespace Cs457.Kv

open Transition

/-- A running replica and, as history, the log its constructor found. -/
structure Process where
  replica : Replica
  opened : List UInt8

inductive ProcessAction where
  | write (key : UInt32) (data : String) (timestamp : Timestamp)
  | runTask
  | restart
  deriving DecidableEq

/-- The empty store. -/
def Store.empty : Store := fun _ => none

namespace Process

def start (file : List UInt8) : Process := ⟨Replica.create file, file⟩

def step (codec : Codec DoWrite) (p : Process) : ProcessAction → Option Process
  | .write key data timestamp =>
    (p.replica.write key data timestamp).toOption.map fun r => { p with replica := r }
  | .runTask => (p.replica.runTask codec).map fun r => { p with replica := r }
  | .restart => if p.replica.strand = [] then some (start p.replica.file) else none

end Process

/-- No call of `write` comes before the replay task has run, and the records are within
protobuf's limit. -/
def WriteOk (codec : Codec DoWrite) (p : Process) : ProcessAction → Prop
  | .write key data timestamp => .replay ∉ p.replica.strand ∧
      codec.Fits (Replica.logRecord key data timestamp)
  | _ => True

/-- The steps of one process. -/
def ProcessStep (codec : Codec DoWrite) (p : Process) (a : ProcessAction) : Prop :=
  WriteOk codec p a ∧ a ≠ .restart

/-- A record as `Replica::write` logs it. -/
structure LogOk (codec : Codec DoWrite) (m : DoWrite) : Prop where
  uuid : m.uuid = ""
  key : m.key < 256
  fits : codec.Fits m

/-- A record is written again as it was. -/
theorem LogOk.logRecord {codec : Codec DoWrite} {m : DoWrite} (h : LogOk codec m) :
    Replica.logRecord m.key m.val m.timestamp = m := by
  obtain ⟨uuid, key, timestamp, val⟩ := m
  have huuid : uuid = "" := h.uuid
  rw [huuid]
  rfl

variable {codec : Codec DoWrite} {p p' : Process} {old app queued : List DoWrite}

/-- The process has been constructed on the records `old` and has not replayed them. -/
structure Fresh (codec : Codec DoWrite) (p : Process) (old : List DoWrite) : Prop where
  opened : p.opened = Log.records codec old
  file : p.replica.file = Log.records codec old
  store : p.replica.store = Store.empty
  strand : p.replica.strand = [.replay]
  ok : ∀ m ∈ old, LogOk codec m

/-- The process has appended `app`, and `queued` waits in the strand. -/
structure Running (codec : Codec DoWrite) (p : Process) (old app queued : List DoWrite) :
    Prop where
  opened : p.opened = Log.records codec old
  file : p.replica.file = Log.records codec (old ++ app)
  store : p.replica.store = storeRegister.apply Store.empty app
  strand : p.replica.strand = queued.map .update
  replayed : old <+: app ++ queued
  ok : ∀ m ∈ old ++ (app ++ queued), LogOk codec m

/-- A process that starts has its replay to run. -/
theorem fresh_start (hok : ∀ m ∈ old, LogOk codec m) :
    Fresh codec (Process.start (Log.records codec old)) old :=
  ⟨rfl, rfl, rfl, rfl, hok⟩

/-! ## One step -/

/-- The replay task queues every record found again. -/
theorem Fresh.replay (h : Fresh codec p old) :
    ({ p.replica with strand := [] } : Replica).perform codec .replay
      = .ok { p.replica with strand := old.map .update } := by
  have hread : Log.replay codec p.replica.file = old := by
    rw [h.file, Log.replay_records fun m hm => (h.ok m hm).fits]
  have hqueue : old.map (fun m => LogTask.update (Replica.logRecord m.key m.val m.timestamp))
      = old.map .update :=
    List.map_congr_left fun m hm => by rw [(h.ok m hm).logRecord]
  have hdone := Replica.replay_queues (r := { p.replica with strand := [] })
    (fun m hm => (h.ok m hm).key) h.store
  rw [hqueue, List.nil_append] at hdone
  rw [Replica.perform, Replica.replayTask, hread]
  exact hdone

/-- The replay puts every record on the strand again. -/
theorem Fresh.runTask (h : Fresh codec p old) (hstep : p.step codec .runTask = some p') :
    Running codec p' old [] old := by
  obtain ⟨r', hr', rfl⟩ := Option.map_eq_some_iff.mp hstep
  obtain ⟨t, rest, hstrand, hperform⟩ := Replica.runTask_eq_some hr'
  rw [h.strand] at hstrand
  obtain ⟨rfl, rfl⟩ := List.cons.inj hstrand
  obtain rfl := Except.ok.inj (h.replay.symm.trans hperform)
  exact ⟨h.opened, by rw [List.append_nil]; exact h.file, h.store, rfl,
    List.prefix_refl old, fun m hm => h.ok m (by simpa using hm)⟩

/-- An update task: the head of the queue is appended and put in the store. -/
theorem Running.runTask (h : Running codec p old app queued)
    (hstep : p.step codec .runTask = some p') :
    ∃ m rest, queued = m :: rest ∧ Running codec p' old (app ++ [m]) rest := by
  obtain ⟨r', hr', rfl⟩ := Option.map_eq_some_iff.mp hstep
  obtain ⟨t, rest, hstrand, hperform⟩ := Replica.runTask_eq_some hr'
  rw [h.strand] at hstrand
  cases queued with
  | nil => cases hstrand
  | cons m queued =>
    obtain ⟨rfl, rfl⟩ := List.cons.inj hstrand
    obtain rfl := Except.ok.inj hperform
    refine ⟨m, queued, rfl, ⟨h.opened, ?_, ?_, rfl, ?_, fun x hx => h.ok x ?_⟩⟩
    · show p.replica.file ++ Log.record codec m = _
      rw [h.file, ← List.append_assoc, Log.records_append codec (old ++ app), Log.records,
        Log.records, List.flatMap_singleton]
    · rw [Replica.updateTask_store, Register.apply_append, ← h.store]
      rfl
    · rw [List.append_assoc]
      exact h.replayed
    · simpa using hx

/-- A call of `write`: the record is dropped or joins the queue. -/
theorem Running.write (h : Running codec p old app queued) {key : UInt32} {data : String}
    {timestamp : Timestamp} (hok : WriteOk codec p (.write key data timestamp))
    (hstep : p.step codec (.write key data timestamp) = some p') :
    ∃ queued', Running codec p' old app queued' := by
  obtain ⟨r', hr', rfl⟩ := Option.map_eq_some_iff.mp hstep
  cases hw : p.replica.write key data timestamp with
  | error f =>
    rw [hw] at hr'
    cases hr'
  | ok x =>
    rw [hw] at hr'
    obtain rfl := Option.some.inj hr'
    -- `write` drops what is not newer than the store, else it queues one record.
    obtain ⟨hkey, ⟨_, hsame⟩ | ⟨_, hnew⟩⟩ := Replica.write_ok hw
    · rw [hsame]
      exact ⟨queued, h⟩
    · refine ⟨queued ++ [Replica.logRecord key data timestamp], ?_⟩
      rw [hnew]
      refine ⟨h.opened, h.file, h.store, ?_, ?_, fun m hm => ?_⟩
      · rw [List.map_append, ← h.strand]
        rfl
      · rw [← List.append_assoc]
        exact h.replayed.trans (List.prefix_append _ _)
      · rw [← List.append_assoc, ← List.append_assoc, List.mem_append, List.append_assoc] at hm
        rcases hm with hm | hm
        · exact h.ok m hm
        · rw [List.mem_singleton.mp hm]
          exact ⟨rfl, hkey, hok.2⟩

/-- A restart on a drained strand: the next process finds what was found and what was
appended. -/
theorem Running.restart (h : Running codec p old app queued)
    (hstep : p.step codec .restart = some p') :
    queued = [] ∧ Fresh codec p' (old ++ app) := by
  simp only [Process.step] at hstep
  split at hstep
  · next hdrained =>
    obtain rfl := Option.some.inj hstep
    have hq : queued = [] := by
      rw [h.strand] at hdrained
      exact List.map_eq_nil_iff.mp hdrained
    refine ⟨hq, ?_⟩
    rw [h.file]
    refine fresh_start fun m hm => h.ok m ?_
    rw [hq, List.append_nil]
    exact hm
  · cases hstep

/-! ## Runs -/

/-- Before the replay task only that task can run. -/
theorem Fresh.step (h : Fresh codec p old) {a : ProcessAction} (hok : WriteOk codec p a)
    (hstep : p.step codec a = some p') : a = .runTask := by
  cases a with
  | runTask => rfl
  | write key data timestamp =>
    exact absurd (by rw [h.strand]; exact List.mem_cons_self) hok.1
  | restart =>
    simp only [Process.step, h.strand] at hstep
    cases hstep

/-- **A run of one process.** It appends one record for each task it runs, after those it has
appended already. Induction on the run. -/
theorem Running.run {as : List ProcessAction} (h : Running codec p old app queued)
    (hsteps : Along (Process.step codec) (ProcessStep codec) p as)
    (hrun : exec (Process.step codec) p as = some p') :
    ∃ new queued', Running codec p' old (app ++ new) queued' ∧ new.length = as.count .runTask := by
  induction as generalizing p app queued with
  | nil =>
    obtain rfl := Option.some.inj hrun
    exact ⟨[], queued, by rw [List.append_nil]; exact h, rfl⟩
  | cons a as ih =>
    obtain ⟨m, hm, hrest⟩ := exec_cons.mp hrun
    have htail := hsteps.2 m hm
    cases a with
    | runTask =>
      obtain ⟨x, rest, _, hnext⟩ := h.runTask hm
      obtain ⟨new, queued', hlast, hlen⟩ := ih hnext htail hrest
      refine ⟨x :: new, queued', by rw [List.append_cons]; exact hlast, ?_⟩
      rw [List.length_cons, hlen, List.count_cons_self]
    | write key data timestamp =>
      obtain ⟨queued₁, hnext⟩ := h.write hsteps.1.1 hm
      obtain ⟨new, queued', hlast, hlen⟩ := ih hnext htail hrest
      refine ⟨new, queued', hlast, ?_⟩
      rw [hlen, List.count_cons_of_ne (by simp)]
    | restart => exact absurd rfl hsteps.1.2

/-- A run of one process from its start: either nothing has happened or the replay task ran
first. -/
theorem Fresh.run {as : List ProcessAction} (h : Fresh codec p old)
    (hsteps : Along (Process.step codec) (ProcessStep codec) p as)
    (hrun : exec (Process.step codec) p as = some p') :
    (as = [] ∧ p' = p) ∨
      ∃ app queued, Running codec p' old app queued ∧ app.length + 1 = as.count .runTask := by
  cases as with
  | nil => exact Or.inl ⟨rfl, (Option.some.inj hrun).symm⟩
  | cons a as =>
    obtain ⟨m, hm, hrest⟩ := exec_cons.mp hrun
    obtain rfl := h.step hsteps.1.1 hm
    obtain ⟨new, queued', hlast, hlen⟩ := (h.runTask hm).run (hsteps.2 m hm) hrest
    refine Or.inr ⟨new, queued', hlast, ?_⟩
    rw [hlen, List.count_cons_self]

/-- Both phases, with the records of some moment. -/
def Sane (codec : Codec DoWrite) (p : Process) : Prop :=
  (∃ old, Fresh codec p old) ∨ ∃ old app queued, Running codec p old app queued

/-- A step writes records that can be read back. -/
theorem Sane.step {a : ProcessAction} (h : Sane codec p) (hok : WriteOk codec p a)
    (hstep : p.step codec a = some p') : Sane codec p' := by
  rcases h with ⟨old, h⟩ | ⟨old, app, queued, h⟩
  · obtain rfl := h.step hok hstep
    exact Or.inr ⟨old, [], old, h.runTask hstep⟩
  · cases a with
    | runTask =>
      obtain ⟨m, rest, _, hnext⟩ := h.runTask hstep
      exact Or.inr ⟨old, app ++ [m], rest, hnext⟩
    | write key data timestamp =>
      obtain ⟨queued', hnext⟩ := h.write hok hstep
      exact Or.inr ⟨old, app, queued', hnext⟩
    | restart => exact Or.inl ⟨old ++ app, (h.restart hstep).2⟩

/-! ## Draining the strand -/

/-- While tasks are queued, the next one can run. -/
theorem Running.next (h : Running codec p old app queued) (hne : queued ≠ []) :
    ∃ p', p.step codec .runTask = some p' := by
  obtain ⟨m, rest, rfl⟩ := List.exists_cons_of_ne_nil hne
  have hstrand : p.replica.strand = .update m :: rest.map .update := h.strand
  exact ⟨_, by simp only [Process.step, Replica.runTask, hstrand]; rfl⟩

/-- The replay can run. -/
theorem Fresh.next (h : Fresh codec p old) : ∃ p', p.step codec .runTask = some p' := by
  simp only [Process.step, Replica.runTask, h.strand, h.replay]
  exact ⟨_, rfl⟩

/-- The queue can be run to its end. -/
theorem Running.drain (h : Running codec p old app queued) :
    ∃ p', exec (Process.step codec) p (List.replicate queued.length .runTask) = some p' ∧
      Running codec p' old (app ++ queued) [] := by
  induction queued generalizing p app with
  | nil => exact ⟨p, rfl, by rw [List.append_nil]; exact h⟩
  | cons m queued ih =>
    obtain ⟨p₁, hp₁⟩ := h.next (List.cons_ne_nil m queued)
    obtain ⟨x, rest, heq, hnext⟩ := h.runTask hp₁
    obtain ⟨rfl, rfl⟩ := List.cons.inj heq
    obtain ⟨p₂, hp₂, hlast⟩ := ih hnext
    refine ⟨p₂, ?_, by rw [List.append_cons]; exact hlast⟩
    rw [List.length_cons, List.replicate_succ]
    exact exec_cons.mpr ⟨p₁, hp₁, hp₂⟩

/-- Wherever the tasks have run out, everything queued has been appended. -/
theorem Running.drained {k : ℕ} (h : Running codec p old app queued)
    (hrun : exec (Process.step codec) p (List.replicate k .runTask) = some p')
    (hstrand : p'.replica.strand = []) : Running codec p' old (app ++ queued) [] := by
  induction k generalizing p app queued with
  | zero =>
    obtain rfl := Option.some.inj hrun
    rw [h.strand] at hstrand
    obtain rfl := List.map_eq_nil_iff.mp hstrand
    rw [List.append_nil]
    exact h
  | succ k ih =>
    obtain ⟨m, hm, hrest⟩ := exec_cons.mp hrun
    obtain ⟨x, rest, rfl, hnext⟩ := h.runTask hm
    rw [List.append_cons]
    exact ih hnext hrest

/-- After the replay and the tasks that it queues, the strand is empty. -/
theorem Fresh.drain (h : Fresh codec p old) :
    ∃ p', exec (Process.step codec) p (List.replicate (old.length + 1) .runTask) = some p' ∧
      Running codec p' old old [] := by
  obtain ⟨p₁, hp₁⟩ := h.next
  obtain ⟨p₂, hp₂, hlast⟩ := (h.runTask hp₁).drain
  exact ⟨p₂, exec_cons.mpr ⟨p₁, hp₁, hp₂⟩, hlast⟩

/-- And only then. -/
theorem Fresh.drained {k : ℕ} (h : Fresh codec p old)
    (hrun : exec (Process.step codec) p (List.replicate k .runTask) = some p')
    (hstrand : p'.replica.strand = []) : Running codec p' old old [] := by
  cases k with
  | zero =>
    obtain rfl := Option.some.inj hrun
    rw [h.strand] at hstrand
    cases hstrand
  | succ k =>
    obtain ⟨m, hm, hrest⟩ := exec_cons.mp hrun
    exact (h.runTask hm).drained hrest hstrand

/-! ## A log of one record -/

instance instCountableChar : Countable Char :=
  Function.Injective.countable (f := Char.toNat) fun _ _ h => Char.toNat_inj.mp h

instance instCountableString : Countable String :=
  Function.Injective.countable (f := String.toList) fun _ _ h => String.toList_injective h

instance : Countable DoWrite :=
  Function.Injective.countable (f := fun m : DoWrite =>
      (m.uuid, m.key.toNat, m.timestamp.seconds, m.timestamp.nanos, m.val)) fun a b h => by
    obtain ⟨_, _, ⟨_, _⟩, _⟩ := a
    obtain ⟨_, _, ⟨_, _⟩, _⟩ := b
    simp_all [UInt32.toNat_inj]

/-- The key 5 is given the value `v` at second 100. -/
def firstWrite : DoWrite := ⟨"", 5, ⟨100, 0⟩, "v"⟩

/-- Protobuf's bytes for `firstWrite`. -/
noncomputable def firstCodec : Codec DoWrite :=
  .sample firstWrite [0x10, 0x05, 0x1a, 0x02, 0x08, 0x64, 0x22, 0x01, 0x76] (by decide)

/-- The sample write is one that is read back. -/
theorem firstWrite_ok : LogOk firstCodec firstWrite where
  uuid := rfl
  key := by decide
  fits := by
    have hbytes : firstCodec.serialize firstWrite
        = [0x10, 0x05, 0x1a, 0x02, 0x08, 0x64, 0x22, 0x01, 0x76] := Codec.sample_serialize ..
    rw [Codec.Fits, hbytes]
    decide

/-! ## The log and the store -/

/-- What a restart has to bring back: the fold of the log it found is the store before. -/
theorem Running.recovers (h : Running codec p old app []) :
    storeRegister.apply Store.empty (old ++ app) = p.replica.store := by
  have hinit : old <+: app := by simpa using h.replayed
  rw [h.store, Register.apply_after_prefix _ hinit]

/-- **The log and the store agree.** From any log of well-formed records, in every state that
any interleaving of `write` calls, log tasks and restarts reaches: the store is the fold, in
log order, of the records the process has appended to the log it found; while the process
runs no stored timestamp decreases; and when it stops with its strand drained, the store of
the next process is the same again as soon as the replay task and the tasks it posted have
run, whatever calls of `write` come in between. -/
theorem log_agrees_with_store (hok : ∀ m ∈ old, LogOk codec m) {as : List ProcessAction}
    (hsteps : Along (Process.step codec) (WriteOk codec)
      (Process.start (Log.records codec old)) as)
    (hrun : exec (Process.step codec) (Process.start (Log.records codec old)) as = some p) :
    (∃ app, p.replica.file = p.opened ++ Log.records codec app ∧
      p.replica.store = storeRegister.apply Store.empty app) ∧
    (∀ bs q, Along (Process.step codec) (ProcessStep codec) p bs →
      exec (Process.step codec) p bs = some q → ∀ k e, p.replica.store k = some e →
        ∃ e', q.replica.store k = some e' ∧ e.timestamp ≤ e'.timestamp) ∧
    (p.replica.strand = [] → ∃ p₁, p.step codec .restart = some p₁ ∧
      (∃ q, exec (Process.step codec) p₁ (List.replicate
          ((Log.replay codec p.replica.file).length + 1) .runTask) = some q ∧
        q.replica.strand = [] ∧ q.replica.store = p.replica.store) ∧
      ∀ bs q, Along (Process.step codec) (ProcessStep codec) p₁ bs →
        exec (Process.step codec) p₁ bs = some q →
        bs.count .runTask = (Log.replay codec p.replica.file).length + 1 →
        q.replica.store = p.replica.store) := by
  have hsane : Sane codec p := exec_inv_along (fun _ _ _ hs hC hstep => hs.step hC hstep)
    (Or.inl ⟨old, fresh_start hok⟩) hsteps hrun
  refine ⟨?_, fun bs q hbs hq k e he => ?_, fun hstrand => ?_⟩
  · rcases hsane with ⟨old', h⟩ | ⟨old', app, queued, h⟩
    · exact ⟨[], by rw [h.file, h.opened]; exact (List.append_nil _).symm, h.store⟩
    · exact ⟨app, by rw [h.file, h.opened, Log.records_append], h.store⟩
  · rcases hsane with ⟨old', h⟩ | ⟨old', app, queued, h⟩
    · rw [h.store] at he
      cases he
    · obtain ⟨new, queued', hlast, _⟩ := h.run hbs hq
      rw [hlast.store, Register.apply_append, ← h.store]
      exact Register.apply_time (R := storeRegister) he new
  · rcases hsane with ⟨old', h⟩ | ⟨old', app, queued, h⟩
    · rw [h.strand] at hstrand
      cases hstrand
    · have hrestart : p.step codec .restart = some (Process.start p.replica.file) := if_pos hstrand
      obtain ⟨rfl, hfresh⟩ := h.restart hrestart
      have hread : Log.replay codec p.replica.file = old' ++ app := by
        rw [h.file, Log.replay_records fun m hm => (hfresh.ok m hm).fits]
      rw [hread]
      refine ⟨_, hrestart, ?_, fun bs q hbs hq hcount => ?_⟩
      · obtain ⟨q, hq, hlast⟩ := hfresh.drain
        exact ⟨q, hq, hlast.strand, hlast.store.trans h.recovers⟩
      · rcases hfresh.run hbs hq with ⟨rfl, _⟩ | ⟨app', queued', hlast, hlen⟩
        · cases hcount
        · -- as many records have been appended as were found, and these come first
          have hinit : old' ++ app <+: app' :=
            List.prefix_of_prefix_length_le hlast.replayed (List.prefix_append _ _) (by omega)
          have heq : old' ++ app = app' := hinit.eq_of_length (by omega)
          rw [hlast.store, ← heq, h.recovers]

/-- One write, its task, and a restart that finds it again. -/
theorem log_agrees_with_store_first : ∃ p,
    exec (Process.step firstCodec) (Process.start (Log.records firstCodec []))
      [.runTask, .write 5 "v" ⟨100, 0⟩, .runTask] = some p ∧
    p.replica.store 5 = some ⟨"v", ⟨100, 0⟩⟩ ∧
    ∃ p₁, p.step firstCodec .restart = some p₁ ∧ ∃ q,
      exec (Process.step firstCodec) p₁ (List.replicate
        ((Log.replay firstCodec p.replica.file).length + 1) .runTask) = some q ∧
      q.replica.strand = [] ∧ q.replica.store = p.replica.store := by
  have hrun : ∃ p, exec (Process.step firstCodec) (Process.start (Log.records firstCodec []))
      [.runTask, .write 5 "v" ⟨100, 0⟩, .runTask] = some p ∧ p.replica.strand = [] ∧
      p.replica.store 5 = some ⟨"v", ⟨100, 0⟩⟩ := ⟨_, rfl, rfl, rfl⟩
  have hsteps : Along (Process.step firstCodec) (WriteOk firstCodec)
      (Process.start (Log.records firstCodec [])) [.runTask, .write 5 "v" ⟨100, 0⟩, .runTask] := by
    refine ⟨trivial, fun p₁ h₁ => ⟨⟨?_, firstWrite_ok.fits⟩, fun p₂ _ =>
      ⟨trivial, fun _ _ => trivial⟩⟩⟩
    obtain rfl := Option.some.inj h₁
    exact List.not_mem_nil
  obtain ⟨p, hp, hstrand, hstore⟩ := hrun
  obtain ⟨_, _, hrestart⟩ := log_agrees_with_store
    (show ∀ m ∈ ([] : List DoWrite), LogOk firstCodec m by simp) hsteps hp
  obtain ⟨p₁, hp₁, hq, _⟩ := hrestart hstrand
  exact ⟨p, hp, hstore, p₁, hp₁, hq⟩

/-! ## What restarts leave on disk -/

/-- A replica is constructed on `file`, runs until its strand is empty and leaves `file'`. -/
def Drained (codec : Codec DoWrite) (file file' : List UInt8) : Prop :=
  ∃ k p, exec (Process.step codec) (Process.start file) (List.replicate k .runTask) = some p ∧
    p.replica.strand = [] ∧ p.replica.file = file'

/-- Any number of such rounds. -/
def Restarts (codec : Codec DoWrite) : ℕ → List UInt8 → List UInt8 → Prop
  | 0, file, file' => file' = file
  | k + 1, file, file' => ∃ mid, Drained codec file mid ∧ Restarts codec k mid file'

/-- **A restart doubles the log.** -/
theorem drained_iff (hok : ∀ m ∈ old, LogOk codec m) {file' : List UInt8} :
    Drained codec (Log.records codec old) file' ↔ file' = Log.records codec (old ++ old) := by
  constructor
  · rintro ⟨k, p, hrun, hstrand, rfl⟩
    exact ((fresh_start hok).drained hrun hstrand).file
  · rintro rfl
    obtain ⟨p, hrun, hlast⟩ := (fresh_start hok).drain
    exact ⟨old.length + 1, p, hrun, hlast.strand, hlast.file⟩

/-- The records after `k` rounds. -/
def doubled (old : List DoWrite) : ℕ → List DoWrite
  | 0 => old
  | k + 1 => doubled (old ++ old) k

/-- Each restart doubles the log. -/
theorem length_doubled (old : List DoWrite) (k : ℕ) :
    (doubled old k).length = 2 ^ k * old.length := by
  induction k generalizing old with
  | zero => simp [doubled]
  | succ k ih =>
    rw [doubled, ih, List.length_append, Nat.pow_succ, Nat.mul_assoc, Nat.two_mul]

/-- The log after `k` restarts is the doubled one, and no other. -/
theorem restarts_iff (hok : ∀ m ∈ old, LogOk codec m) {k : ℕ} {file' : List UInt8} :
    Restarts codec k (Log.records codec old) file' ↔
      file' = Log.records codec (doubled old k) := by
  induction k generalizing old with
  | zero => rfl
  | succ k ih =>
    have hok' : ∀ m ∈ old ++ old, LogOk codec m := fun m hm =>
      (List.mem_append.mp hm).elim (hok m) (hok m)
    rw [doubled, ← ih hok']
    constructor
    · rintro ⟨mid, hmid, hrest⟩
      rw [(drained_iff hok).mp hmid] at hrest
      exact hrest
    · intro hrest
      exact ⟨_, (drained_iff hok).mpr rfl, hrest⟩

/-- **Recovery leaves the log as it was only when it is empty.** -/
theorem recovery_idempotent_iff (hok : ∀ m ∈ old, LogOk codec m) :
    (∀ k file', Restarts codec k (Log.records codec old) file' →
      file' = Log.records codec old) ↔ old = [] := by
  constructor
  · intro h
    have htwice := h 1 _ ((restarts_iff hok).mpr rfl)
    have hread := congrArg (Log.replay codec) htwice
    rw [Log.replay_records fun m hm => (hok m hm).fits, doubled, doubled,
      Log.replay_records fun m hm => ((List.mem_append.mp hm).elim (hok m) (hok m)).fits] at hread
    simpa using hread
  · rintro rfl k file' hk
    have hnil : doubled [] k = [] := by
      rw [← List.length_eq_zero_iff, length_doubled, List.length_nil, Nat.mul_zero]
    rw [(restarts_iff hok).mp hk, hnil]

/-- A log with one record is not the same after a restart. -/
theorem recovery_idempotent_iff_first :
    (∀ k file', Restarts firstCodec k (Log.records firstCodec [firstWrite]) file' →
      file' = Log.records firstCodec [firstWrite]) ↔ [firstWrite] = [] :=
  recovery_idempotent_iff fun _ hm => List.mem_singleton.mp hm ▸ firstWrite_ok

/-- One restart on a log of one record leaves two. -/
theorem restart_doubles_first :
    Restarts firstCodec 1 (Log.records firstCodec [firstWrite])
      (Log.records firstCodec [firstWrite, firstWrite]) ∧
    Log.records firstCodec [firstWrite, firstWrite] ≠ Log.records firstCodec [firstWrite] := by
  have hok : ∀ m ∈ [firstWrite], LogOk firstCodec m := fun _ hm =>
    List.mem_singleton.mp hm ▸ firstWrite_ok
  refine ⟨(restarts_iff hok).mpr rfl, fun heq => ?_⟩
  have hlen := congrArg List.length heq
  rw [Log.records_cons, List.length_append, Log.length_record] at hlen
  omega

end Cs457.Kv
