import Cs457.Kv.Completions
import Cs457.Kv.Versions
import Cs457.Kv.Visible

/-!
# Key-value store — what survives a stop

A process may be stopped between any two tasks, with records in the strand of its log, and the
next one serves requests while it replays. What was still in the strand is gone. But what a server
has in its log, or stores, it finds again whatever stops and starts come in between: the record is
written before the element is stored, the log is only appended to, and a replay queues every record
again behind what came before it.

* **`Backed.grows`** — the invariant of a replica: what is stored is in the log, and what is in the
  log has been taken in or is still to be replayed.
* **`Backed.restart`** — a stop keeps it.
* **`retained_found`** — what a server has in its log or stores, it finds in every later process.
-/

namespace Cs457.Kv

open Transition

namespace Replica

variable {codec : Codec DoWrite} {r r' : Replica} {ms : List DoWrite}

/-- What a stop cannot take away: a record that a replay reads, or a store that is as new. -/
def Retained (codec : Codec DoWrite) (r : Replica) (m : DoWrite) : Prop :=
  m ∈ Log.replay codec r.file ∨ storeRegister.Covers r.store m

/-- **The invariant of a replica** whose log holds the records `ms`. -/
structure Backed (codec : Codec DoWrite) (r : Replica) (ms : List DoWrite) : Prop where
  file : r.file = Log.records codec ms
  ok : ∀ m ∈ ms, LogOk codec m
  queue : ∀ m, r.Queued m → LogOk codec m
  stored : ∀ k e, r.store k = some e → logRecord k e.data e.timestamp ∈ ms
  taken : .replay ∈ r.strand ∨ ∀ m ∈ ms, r.Taken m

/-- The next process finds the log as it was left. -/
theorem Backed.restart (h : r.Backed codec ms) : (create r.file).Backed codec ms where
  file := h.file
  ok := h.ok
  queue m hm := by cases List.mem_singleton.mp hm
  stored k e he := by cases he
  taken := Or.inl List.mem_cons_self

/-- A process starts with an empty store, and its replay to run. -/
theorem backed_create (hok : ∀ m ∈ ms, LogOk codec m) :
    (create (Log.records codec ms)).Backed codec ms where
  file := rfl
  ok := hok
  queue m hm := by cases List.mem_singleton.mp hm
  stored k e he := by cases he
  taken := Or.inl List.mem_cons_self

/-- A replay takes every record in. Induction on the records. -/
theorem taken_of_replay {msgs : List DoWrite} (h : msgs.foldlM replayHandler r = .ok r') :
    ∀ m ∈ msgs, r'.Taken (logRecord m.key m.val m.timestamp) := by
  induction msgs generalizing r with
  | nil => exact fun m hm => (by cases hm)
  | cons m msgs ih =>
    rw [List.foldlM_cons] at h
    obtain ⟨r₁, hr₁, hrest⟩ := Coordinator.bind_ok h
    obtain ⟨hstore, -, hstrand⟩ := replay_keeps hrest
    refine List.forall_mem_cons.mpr ⟨?_, ih hrest⟩
    exact (taken_write hr₁).imp (fun hqueued => hstrand hqueued) fun hcovers => hstore ▸ hcovers

/-- A write queues its record first. -/
theorem Backed.write (h : r.Backed codec ms) {key : UInt32} {data : String} {timestamp : Timestamp}
    (hwrite : r.write key data timestamp = .ok r')
    (hfits : codec.Fits (logRecord key data timestamp)) : r'.Backed codec ms := by
  have hgrows : Grows codec r r' := .write hwrite
  obtain ⟨hkey, ⟨-, rfl⟩ | ⟨-, rfl⟩⟩ := write_ok hwrite
  · exact h
  · refine ⟨h.file, h.ok, fun m hm => ?_, h.stored,
      h.taken.imp (List.mem_append_left _) fun hall m hm => (hall m hm).grows hgrows⟩
    rcases List.mem_append.mp hm with hm | hm
    · exact h.queue m hm
    · obtain rfl := LogTask.update.inj (List.mem_singleton.mp hm)
      exact ⟨rfl, hkey, hfits⟩

/-- **A task**: a record is written before it is stored, and a replay leaves the log alone. -/
theorem Backed.runTask (h : r.Backed codec ms) (htask : r.runTask codec = some r') :
    ∃ new, r'.Backed codec (ms ++ new) := by
  have hgrows : Grows codec r r' := .task htask
  obtain ⟨t, rest, hstrand, hperform⟩ := runTask_eq_some htask
  -- An update appends its record and may store it; the replay reads the records back.
  cases t with
  | update m =>
    have hok : LogOk codec m := h.queue m (by rw [Queued, hstrand]; exact List.mem_cons_self)
    obtain rfl := Except.ok.inj hperform
    refine ⟨[m], updateTask_file ms h.file m, fun x hx => ?_, fun x hx => ?_, fun k e he => ?_, ?_⟩
    · rcases List.mem_append.mp hx with hx | hx
      · exact h.ok x hx
      · exact List.mem_singleton.mp hx ▸ hok
    · exact h.queue x (by rw [Queued, hstrand]; exact List.mem_cons_of_mem _ hx)
    · simp only [updateTask] at he
      split at he
      · exact List.mem_append_left _ (h.stored k e he)
      · by_cases hk : k = m.key
        · subst hk
          rw [Function.update_self] at he
          obtain rfl := Option.some.inj he
          exact List.mem_append_right _ (List.mem_singleton.mpr hok.logRecord)
        · rw [Function.update_of_ne hk] at he
          exact List.mem_append_left _ (h.stored k e he)
    · -- If the replay is still to run, it is behind the update.
      have hpending : .replay ∈ r.strand → LogTask.replay ∈ rest := fun hmem =>
        (List.mem_cons.mp (hstrand ▸ hmem)).resolve_left fun heq => by cases heq
      refine h.taken.imp hpending fun hall x hx => ?_
      rcases List.mem_append.mp hx with hx | hx
      · exact (hall x hx).grows hgrows
      · obtain rfl := List.mem_singleton.mp hx
        exact Or.inr (updateTask_store .. ▸ storeRegister.covers_put_self _ x)
  | replay =>
    have hread : Log.replay codec r.file = ms := by
      rw [h.file, Log.replay_records fun m hm => (h.ok m hm).fits]
    obtain ⟨hstore, hfile, -⟩ := replay_keeps hperform
    rw [perform, replayTask, hread] at hperform
    refine ⟨[], ?_⟩
    rw [List.append_nil]
    refine ⟨hfile.trans h.file, h.ok, fun m hm => ?_, fun k e he => h.stored k e (hstore ▸ he),
      Or.inr fun m hm => (h.ok m hm).logRecord ▸ taken_of_replay hperform m hm⟩
    rcases replay_queues_read hperform _ hm with hold | ⟨x, hx, heq⟩
    · exact h.queue m (by rw [Queued, hstrand]; exact List.mem_cons_of_mem _ hold)
    · rw [LogTask.update.inj heq, (h.ok x hx).logRecord]
      exact h.ok x hx

/-- A replica that has taken in what its log holds will find what it retains. -/
theorem Backed.covers (h : r.Backed codec ms) {m : DoWrite} (hm : m ∈ ms)
    (hreplayed : .replay ∉ r.strand)
    (hdone : ∀ x, r.Queued x → x.key = m.key → x.timestamp < m.timestamp) :
    storeRegister.Covers r.store m :=
  (h.taken.resolve_left hreplayed m hm).resolve_left fun hqueued =>
    lt_irrefl _ (hdone m hqueued rfl)

end Replica

namespace Coordinator

/-- The replica is written to, or runs a task, or is left alone. -/
theorem replica_of_handle {codecs : Codecs} {c c' : Coordinator} {ev : Event} {es : List Effect}
    (h : c.handle codecs ev = some (c', es)) :
    c'.replica = c.replica ∨
    (∃ v ∈ c.writes ev, c.replica.write v.1 v.2.data v.2.timestamp = .ok c'.replica) ∨
    c.replica.runTask codecs.replica = some c'.replica := by
  cases acts_of_handle h with
  | put write => exact Or.inr (Or.inl ⟨_, rfl, write⟩)
  | doWrite sender write => exact Or.inr (Or.inl ⟨_, rfl, write⟩)
  | repairNewer sender newer write =>
    exact Or.inr (Or.inl ⟨_, writes_of_newer newer, write⟩)
  | runLog task => exact Or.inr (Or.inr task)
  | _ => exact Or.inl rfl

end Coordinator

namespace Life

variable {ι : Type} [DecidableEq ι] {codecs : Coordinator.Codecs} {s s' : Life ι} {x : ι}
  {ms : List DoWrite}

/-- What a step hands to `Replica::write` is within protobuf's limit. -/
def Fitting (codec : Codec DoWrite) (s : Life ι) : LifeAction ι → Prop
  | .act a => ∀ e ∈ s.cluster.event a, ∀ v ∈ (s.cluster.node e.1).writes e.2,
    codec.Fits (Replica.logRecord v.1 v.2.data v.2.timestamp)
  | .restart _ => True

/-- **One step**, of this server or of another, or a stop. The log is only appended to. -/
theorem backed_step (h : (s.cluster.node x).replica.Backed codecs.replica ms) {a : LifeAction ι}
    (hfits : Fitting codecs.replica s a) (hstep : s.step codecs a = some s') :
    ∃ new, (s'.cluster.node x).replica.Backed codecs.replica (ms ++ new) := by
  have hsame : (s.cluster.node x).replica.Backed codecs.replica (ms ++ []) := by
    rw [List.append_nil]
    exact h
  -- A restart reads the same file; a step of the cluster concerns one server.
  cases a with
  | restart y =>
    cases hstep
    refine ⟨[], ?_⟩
    show (Function.update s.cluster.node y _ x).replica.Backed codecs.replica (ms ++ [])
    by_cases hx : x = y
    · subst hx
      rw [Function.update_self]
      exact hsame.restart
    · rw [Function.update_of_ne hx]
      exact hsame
  | act a =>
    obtain ⟨c', hc', rfl⟩ := Option.map_eq_some_iff.mp hstep
    rcases Cluster.event_of_step hc' with ⟨-, hnode, -⟩ | ⟨y, ev, m, es, hev, hhandle, hnode, -⟩
    · exact ⟨[], hnode ▸ hsame⟩
    · show ∃ new, (c'.node x).replica.Backed codecs.replica (ms ++ new)
      rw [hnode]
      by_cases hx : x = y
      · subst hx
        rw [Function.update_self]
        rcases Coordinator.replica_of_handle hhandle with heq | ⟨v, hv, hwrite⟩ | htask
        · exact ⟨[], heq ▸ hsame⟩
        · exact ⟨[], hsame.write hwrite (hfits _ hev v hv)⟩
        · exact h.runTask htask
      · rw [Function.update_of_ne hx]
        exact ⟨[], hsame⟩

/-- A run, from a state in which the log holds `ms`. -/
theorem backed_of_run {as : List (LifeAction ι)}
    (hfits : Along (step codecs) (Fitting codecs.replica) s as)
    (hrun : exec (step codecs) s as = some s')
    (h : (s.cluster.node x).replica.Backed codecs.replica ms) :
    ∃ new, (s'.cluster.node x).replica.Backed codecs.replica (ms ++ new) := by
  refine exec_inv_along (P := fun s : Life ι =>
    ∃ new, (s.cluster.node x).replica.Backed codecs.replica (ms ++ new)) ?_
    ⟨[], by rw [List.append_nil]; exact h⟩ hfits hrun
  rintro s a s' ⟨new, hs⟩ hfits hstep
  obtain ⟨more, hmore⟩ := backed_step hs hfits hstep
  exact ⟨new ++ more, by rw [← List.append_assoc]; exact hmore⟩

/-- **What is in a log or in a store is found in every later process.** Whatever stops and starts
and whatever requests come in between, for what a server has once had in its log or stored it
answers with an element that is at least as new, as soon as its log has been replayed and no record
of the key that is as new waits in the strand. -/
theorem retained_found (D : Deployment ι) (codecs : Coordinator.Codecs) {old : ι → List DoWrite}
    (hold : ∀ x, ∀ m ∈ old x, LogOk codecs.replica m) (hintFile : ι → List UInt8)
    {as bs : List (LifeAction ι)} {s s' : Life ι}
    (hfits : Along (step codecs) (Fitting codecs.replica) (start D codecs.replica old hintFile) as)
    (hrun : exec (step codecs) (start D codecs.replica old hintFile) as = some s)
    (hfits' : Along (step codecs) (Fitting codecs.replica) s bs)
    (hrun' : exec (step codecs) s bs = some s') {x : ι} {m : DoWrite}
    (hm : (s.cluster.node x).replica.Retained codecs.replica m)
    (hreplayed : .replay ∉ (s'.cluster.node x).replica.strand)
    (hdone : ∀ m', (s'.cluster.node x).replica.Queued m' → m'.key = m.key →
      m'.timestamp < m.timestamp) :
    s'.cluster.Finds codecs x m.key m.timestamp := by
  obtain ⟨ms, hbacked⟩ : ∃ ms, (s.cluster.node x).replica.Backed codecs.replica ms := by
    obtain ⟨new, hnew⟩ := backed_of_run hfits hrun (Replica.backed_create (hold x))
    exact ⟨old x ++ new, hnew⟩
  obtain ⟨new, hbacked'⟩ := backed_of_run hfits' hrun' hbacked
  -- the record itself is in the log, or that of the element that is stored
  obtain ⟨m₁, hm₁, hkey, hle⟩ : ∃ m₁ ∈ ms, m₁.key = m.key ∧ m.timestamp ≤ m₁.timestamp := by
    rcases hm with hlogged | ⟨e, he, hle⟩
    · rw [hbacked.file, Log.replay_records fun m hm => (hbacked.ok m hm).fits] at hlogged
      exact ⟨m, hlogged, rfl, le_refl _⟩
    · exact ⟨_, hbacked.stored _ _ he, rfl, hle⟩
  obtain ⟨e, he, hle'⟩ := hbacked'.covers (List.mem_append_left new hm₁) hreplayed
    fun x hx hkey' => (hdone x hx (hkey'.trans hkey)).trans_le hle
  exact hkey ▸ Cluster.finds_of_held he (hle.trans hle')

/-- The next task of a log. -/
theorem exists_run_log {r : Replica}
    (h : (s.cluster.node x).replica.runTask codecs.replica = some r) :
    ∃ s', s.step codecs (.act (.run x .log)) = some s' ∧ (s'.cluster.node x).replica = r := by
  have hhandle : (s.cluster.node x).handle codecs Task.log.event =
      some ({ s.cluster.node x with replica := r }, []) := by
    simp only [Task.event, Coordinator.handle, h, Option.map_some]
  refine ⟨_, by rw [step, Cluster.step, hhandle]; rfl, ?_⟩
  show (Function.update s.cluster.node x _ x).replica = r
  rw [Function.update_self]

/-- A server with one record in its log is stopped before it has replayed it. -/
theorem retained_found_couple : ∃ s',
    exec (step coupleCodecs) (start couple firstCodec (fun _ => [firstWrite]) fun _ => [])
      [.restart false, .act (.run false .log), .act (.run false .log)] = some s' ∧
    s'.cluster.Finds coupleCodecs false 5 ⟨100, 0⟩ := by
  have hok : ∀ m ∈ [firstWrite], LogOk firstCodec m := by simpa using firstWrite_ok
  -- the replay queues the record, and the next task stores it
  have hreplay : (Replica.create (Log.records firstCodec [firstWrite])).runTask firstCodec
      = some { Replica.create (Log.records firstCodec [firstWrite]) with
        strand := [.update firstWrite] } :=
    congrArg Except.toOption (fresh_start hok).replay
  obtain ⟨s₂, hs₂, hr₂⟩ := @exists_run_log _ _ coupleCodecs ⟨(start couple firstCodec
    (fun _ => [firstWrite]) fun _ => []).cluster.restart false, _, _⟩ false _ hreplay
  obtain ⟨s₃, hs₃, hr₃⟩ := @exists_run_log _ _ coupleCodecs s₂ false _ (by rw [hr₂]; rfl)
  have hrun : exec (step coupleCodecs) (start couple firstCodec (fun _ => [firstWrite]) fun _ => [])
      [.restart false, .act (.run false .log), .act (.run false .log)] = some s₃ :=
    exec_cons.mpr ⟨_, rfl, exec_cons.mpr ⟨s₂, hs₂, exec_cons.mpr ⟨s₃, hs₃, rfl⟩⟩⟩
  refine ⟨s₃, hrun, ?_⟩
  have hlogged : firstWrite ∈ Log.replay firstCodec (Log.records firstCodec [firstWrite]) := by
    rw [Log.replay_records fun m hm => (hok m hm).fits]
    exact List.mem_cons_self
  have hlog : ∀ s : Life Bool, Fitting firstCodec s (.act (.run false .log)) := by
    rintro s e he v hv
    cases he
    cases hv
  have hfits : Along (step coupleCodecs) (Fitting firstCodec)
      (start couple firstCodec (fun _ => [firstWrite]) fun _ => [])
      [.restart false, .act (.run false .log), .act (.run false .log)] :=
    ⟨trivial, fun _ _ => ⟨hlog _, fun _ _ => ⟨hlog _, fun _ _ => trivial⟩⟩⟩
  have hnone : Along (step coupleCodecs) (Fitting firstCodec)
      (start couple firstCodec (fun _ => [firstWrite]) fun _ => []) [] := trivial
  refine retained_found couple coupleCodecs (fun _ => hok) (fun _ => []) hnone rfl hfits hrun
    (Or.inl hlogged) ?_ ?_
  · rw [hr₃]
    exact List.not_mem_nil
  · rw [hr₃]
    exact fun m' hm' => (by cases hm')

end Life

end Cs457.Kv
