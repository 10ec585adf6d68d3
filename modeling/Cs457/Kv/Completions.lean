import Cs457.Kv.Faults
import Cs457.Kv.Cluster
import Cs457.Kv.Recovery
import Cs457.Kv.HintCodec

/-!
# Key-value store — completions after a restart

A WriteComplete comes back on a connection of the server that wrote, not on the one that the
DoWrite was sent on, so it may reach a process that was started after the one that asked. The
tables of pending requests are lost with a process, and both handlers look a uuid up with `at`.

* **`Life`** — the cluster with servers that stop and start again on their logs. Its history is
  which requests each process has begun.
* **`Remembers.handle`** — a table holds exactly the requests that the process has begun.
* **`completions_tolerated_iff`** — when every completion of a run is handled.
-/

namespace Cs457.Kv

open Transition

namespace Coordinator

/-! ## The completion of an event -/

/-- The uuid of the completion that an event receives, or that its task handles. -/
def completion (c : Coordinator) : Event → Option String
  | .server _ (.writeComplete msg) => some msg.uuid
  | .server _ (.readComplete msg) => some msg.uuid
  | .runWrite => match c.writeStrand with
    | .complete msg _ :: _ => some msg.uuid
    | _ => none
  | .runRead _ => match c.readStrand with
    | .complete msg :: _ => some msg.uuid
    | _ => none
  | _ => none

/-- The table that the completion belongs to has an entry of the uuid. -/
def HasEntry (c : Coordinator) (uuid : String) : Event → Prop
  | .server _ (.writeComplete _) => uuid ∈ c.pendingWrites
  | .runWrite => uuid ∈ c.pendingWrites
  | _ => uuid ∈ c.pendingReads

/-- The store, the tables and the counters are as before. -/
structure Unchanged (c c' : Coordinator) : Prop where
  store : c'.replica.store = c.replica.store
  writes : c'.pendingWrites = c.pendingWrites
  reads : c'.pendingReads = c.pendingReads
  hints : c'.hints = c.hints

/-- **The contract of a completion.** It is handled without an exception, and when nothing waits
for it nothing changes. -/
def Tolerates (codecs : Codecs) (c : Coordinator) (ev : Event) : Prop :=
  ∀ uuid ∈ c.completion ev, c.fault codecs ev = none ∧ (¬ c.HasEntry uuid ev →
    ∀ c' es, c.handle codecs ev = some (c', es) → Unchanged c c')

/-- The uuid under which a task begins a write. -/
def beginsWrite (c : Coordinator) : Event → List String
  | .runWrite => match c.writeStrand with
    | .start _ _ uuid _ :: _ => [uuid]
    | _ => []
  | _ => []

/-- The uuid under which a task begins a read. -/
def beginsRead (c : Coordinator) : Event → List String
  | .runRead uuid => match c.readStrand with
    | .start _ _ _ :: _ => [uuid]
    | _ => []
  | _ => []

/-- A completion arrives from a server that has introduced itself, and is handled by the process
that has begun the request. -/
def Expects (writes reads : List String) (c : Coordinator) : Event → Prop
  | .server source (.writeComplete _) => (c.idOf source).isSome = true
  | .server source (.readComplete _) => (c.idOf source).isSome = true
  | .runWrite => ∀ uuid ∈ c.completion .runWrite, uuid ∈ writes
  | .runRead fresh => ∀ uuid ∈ c.completion (.runRead fresh), uuid ∈ reads
  | _ => True

/-- **The tables.** They hold what the process has begun; no entry is ever erased. -/
structure Remembers (writes reads : List String) (c : Coordinator) : Prop where
  bounded : c.Bounded
  writes : ∀ uuid, uuid ∈ c.pendingWrites ↔ uuid ∈ writes
  reads : ∀ uuid, uuid ∈ c.pendingReads ↔ uuid ∈ reads

variable {codecs : Codecs} {c c' : Coordinator} {ev : Event} {es : List Effect}
  {writes reads : List String}

/-- A process that has just started remembers no put and no get. -/
theorem remembers_create (config : Config) (file hintFile : List UInt8) :
    Remembers [] [] (create config file hintFile) where
  bounded := bounded_create config file hintFile
  writes _ := iff_of_false (AList.notMem_empty _) List.not_mem_nil
  reads _ := iff_of_false (AList.notMem_empty _) List.not_mem_nil

/-- **One event.** -/
theorem Remembers.handle (h : Remembers writes reads c)
    (hhandle : c.handle codecs ev = some (c', es)) :
    Remembers (writes ++ c.beginsWrite ev) (reads ++ c.beginsRead ev) c' := by
  have hbounded := h.bounded.handle hhandle
  have hnone : c'.pendingWrites = c.pendingWrites → c'.pendingReads = c.pendingReads →
      c.beginsWrite ev = [] → c.beginsRead ev = [] →
      Remembers (writes ++ c.beginsWrite ev) (reads ++ c.beginsRead ev) c' := by
    intro hwrites hreads hbw hbr
    rw [hbw, hbr, List.append_nil, List.append_nil]
    exact ⟨hbounded, hwrites ▸ h.writes, hreads ▸ h.reads⟩
  cases acts_of_handle hhandle with
  | @startWrite msg requestor uuid stamp rest head =>
    have hbegins : c.beginsWrite .runWrite = [uuid] := by
      simp only [beginsWrite, head]
    rw [hbegins, show c.beginsRead .runWrite = [] from rfl, List.append_nil]
    refine ⟨hbounded, fun u => ?_, h.reads⟩
    rw [UnorderedMap.mem_emplace, h.writes, List.mem_append, List.mem_singleton, or_comm]
  | @startRead msg requestor own rest uuid head =>
    have hbegins : c.beginsRead (.runRead uuid) = [uuid] := by
      simp only [beginsRead, head]
    rw [hbegins, show c.beginsWrite (.runRead uuid) = [] from rfl, List.append_nil]
    refine ⟨hbounded, h.writes, fun u => ?_⟩
    rw [UnorderedMap.mem_emplace, h.reads, List.mem_append, List.mem_singleton, or_comm]
  | @completeWrite msg sender rest pending head found =>
    have hbegins : c.beginsWrite .runWrite = [] := by
      simp only [beginsWrite, head]
    rw [hbegins, show c.beginsRead .runWrite = [] from rfl, List.append_nil, List.append_nil]
    -- an entry is never erased: the uuid was there before
    have hmem := UnorderedMap.mem_iff_exists_lookup.mpr ⟨pending, found⟩
    refine ⟨hbounded, fun u => ?_, h.reads⟩
    rw [AList.mem_insert, ← h.writes]
    exact or_iff_right_of_imp fun heq => heq ▸ hmem
  | @completeRead msg rest pending uuid head found
  | @answerRead msg rest pending uuid _ head found =>
    have hbegins : c.beginsRead (.runRead uuid) = [] := by
      simp only [beginsRead, head]
    rw [hbegins, show c.beginsWrite (.runRead uuid) = [] from rfl, List.append_nil, List.append_nil]
    have hmem := UnorderedMap.mem_iff_exists_lookup.mpr ⟨pending, found⟩
    refine ⟨hbounded, h.writes, fun u => ?_⟩
    rw [AList.mem_insert, ← h.reads]
    exact or_iff_right_of_imp fun heq => heq ▸ hmem
  | _ => exact hnone rfl rfl rfl rfl

/-- The arrival of a completion. -/
theorem fault_of_arrival {msg : ServerMessage} {source : Chan} (hmsg : ∀ intro, msg ≠ .intro intro)
    (hok : ∀ id, ∃ c' es, c.serverMsgHandler msg source id = .ok (c', es)) :
    c.fault codecs (.server source msg) = none ↔ (c.idOf source).isSome = true := by
  have hsome : ∀ id, c.channelHandler msg source = c.serverMsgHandler msg source id →
      c.fault codecs (.server source msg) = none := by
    intro id heq
    obtain ⟨c', es, hhandler⟩ := hok id
    simp only [fault, outcome, heq, hhandler]
  cases source with
  | outgoing i => exact iff_of_true (hsome i rfl) rfl
  | accepted k =>
    simp only [idOf]
    cases hid : c.introduced k with
    | none =>
      refine iff_of_false (fun h => ?_) (by decide)
      simp only [fault, outcome, channelHandler, hid, unintroducedMsgHandler] at h
      cases msg with
      | intro intro => exact hmsg intro rfl
      | _ => cases h
    | some id =>
      refine iff_of_true (hsome id ?_) rfl
      simp only [channelHandler, hid]

/-- A completion of a put is at the head of the write strand. -/
theorem head_of_completion_write {uuid : String} (h : uuid ∈ c.completion .runWrite) :
    ∃ msg sender rest, c.writeStrand = .complete msg sender :: rest ∧ msg.uuid = uuid := by
  simp only [completion] at h
  split at h
  · next msg sender rest hhead => exact ⟨msg, sender, rest, hhead, Option.some.inj h⟩
  · cases h

/-- A completion of a get is at the head of the read strand. -/
theorem head_of_completion_read {uuid fresh : String} (h : uuid ∈ c.completion (.runRead fresh)) :
    ∃ msg rest, c.readStrand = .complete msg :: rest ∧ msg.uuid = uuid := by
  simp only [completion] at h
  split at h
  · next msg rest hhead => exact ⟨msg, rest, hhead, Option.some.inj h⟩
  · cases h

/-- The task of a WriteComplete throws exactly when the uuid has no entry. -/
theorem fault_of_write {msg : WriteComplete} {sender : ℕ} {rest : List WriteTask}
    (head : c.writeStrand = .complete msg sender :: rest) :
    c.fault codecs .runWrite = none ↔ msg.uuid ∈ c.pendingWrites := by
  simp only [fault, outcome, head, performWrite, completeWrite]
  cases hfound : c.pendingWrites.lookup msg.uuid with
  | none =>
    refine iff_of_false (fun h => (by cases h)) fun hmem => ?_
    obtain ⟨pending, hpending⟩ := UnorderedMap.mem_iff_exists_lookup.mp hmem
    rw [hfound] at hpending
    cases hpending
  | some pending => exact iff_of_true rfl (UnorderedMap.mem_iff_exists_lookup.mpr ⟨pending, hfound⟩)

/-- `at` throws when no get with the uuid is pending. -/
theorem fault_of_read (h : c.Bounded) {msg : ReadComplete} {rest : List ReadTask} {fresh : String}
    (head : c.readStrand = .complete msg :: rest) :
    c.fault codecs (.runRead fresh) = none ↔ msg.uuid ∈ c.pendingReads := by
  simp only [fault, outcome, head, performRead, completeRead]
  cases hfound : c.pendingReads.lookup msg.uuid with
  | none =>
    refine iff_of_false (fun h => (by cases h)) fun hmem => ?_
    obtain ⟨pending, hpending⟩ := UnorderedMap.mem_iff_exists_lookup.mp hmem
    rw [hfound] at hpending
    cases hpending
  | some pending =>
    refine iff_of_true ?_ (UnorderedMap.mem_iff_exists_lookup.mpr ⟨pending, hfound⟩)
    obtain ⟨x, xs, hx⟩ := List.exists_cons_of_ne_nil (h.results hfound)
    simp only [hx, newest]
    split
    · next heq =>
      split at heq
      · cases heq
      · cases heq
    · rfl

/-- **One completion** is handled exactly when the server expects it. -/
theorem Remembers.tolerates_iff (h : Remembers writes reads c) :
    c.Tolerates codecs ev ↔ Expects writes reads c ev := by
  have hother : c.completion ev = none → (c.Tolerates codecs ev ↔ True) := fun hnone =>
    iff_of_true (fun uuid hu => by rw [hnone] at hu; cases hu) trivial
  -- a message that arrives is only posted
  have harrival : ∀ {uuid : String} {p : Prop}, c.completion ev = some uuid →
      (c.fault codecs ev = none ↔ p) →
      (∀ c' es, c.handle codecs ev = some (c', es) → Unchanged c c') →
      (c.Tolerates codecs ev ↔ p) := by
    intro uuid p hcompletion hfault hsame
    constructor
    · exact fun ht => hfault.mp (ht uuid hcompletion).1
    · exact fun hp _ _ => ⟨hfault.mpr hp, fun _ => hsame⟩
  cases ev with
  | server source msg =>
    cases msg with
    | writeComplete msg =>
      refine harrival rfl (fault_of_arrival (fun _ h => by cases h) fun _ => ⟨_, _, rfl⟩) ?_
      intro c' es hhandle
      cases acts_of_handle hhandle
      exact ⟨rfl, rfl, rfl, rfl⟩
    | readComplete msg =>
      refine harrival rfl (fault_of_arrival (fun _ h => by cases h) fun _ => ⟨_, _, rfl⟩) ?_
      intro c' es hhandle
      cases acts_of_handle hhandle
      exact ⟨rfl, rfl, rfl, rfl⟩
    | _ => exact hother rfl
  | runWrite =>
    refine forall₂_congr fun uuid hu => ?_
    obtain ⟨msg, sender, rest, head, rfl⟩ := head_of_completion_write hu
    rw [fault_of_write head, ← h.writes]
    exact and_iff_left_of_imp fun hmem hnone => absurd hmem hnone
  | runRead fresh =>
    refine forall₂_congr fun uuid hu => ?_
    obtain ⟨msg, rest, head, rfl⟩ := head_of_completion_read hu
    rw [fault_of_read h.bounded head, ← h.reads]
    exact and_iff_left_of_imp fun hmem hnone => absurd hmem hnone
  | _ => exact hother rfl

end Coordinator

/-! ## Servers that stop and start -/

namespace Cluster

variable {ι : Type} [DecidableEq ι]

/-- The process of `x` stops and another is started on its logs. Its connections are gone, with
what was on the way to it; what it has sent is still on the way. -/
def restart (c : Cluster ι) (x : ι) : Cluster ι :=
  { c with
    node := Function.update c.node x
      (Coordinator.create (c.node x).config (c.node x).replica.file (c.node x).hintFile)
    accepted := Function.update c.accepted x []
    wire := fun y i => if y = x then none else (c.wire y i).filter fun w => w.1 ≠ x
    net := c.net.filter fun p => p.dst ≠ x }

end Cluster

/-- A cluster with restarts. `writes x` and `reads x` are history: the requests that the process
of `x` has begun. -/
structure Life (ι : Type) where
  cluster : Cluster ι
  writes : ι → List String := fun _ => []
  reads : ι → List String := fun _ => []

inductive LifeAction (ι : Type) where
  | act (a : Action ι)
  | restart (x : ι)
  deriving DecidableEq

namespace Life

variable {ι : Type} [DecidableEq ι]

/-- What the event of an action adds to the history. -/
def extend (history : ι → List String) (event : Option (ι × Coordinator.Event))
    (begins : ι → Coordinator.Event → List String) : ι → List String :=
  match event with
  | none => history
  | some (x, ev) => Function.update history x (history x ++ begins x ev)

def step (codecs : Coordinator.Codecs) (s : Life ι) : LifeAction ι → Option (Life ι)
  | .act a => (s.cluster.step codecs a).map fun c =>
    { cluster := c
      writes := extend s.writes (s.cluster.event a) fun x => (s.cluster.node x).beginsWrite
      reads := extend s.reads (s.cluster.event a) fun x => (s.cluster.node x).beginsRead }
  | .restart x => some
    { cluster := s.cluster.restart x
      writes := Function.update s.writes x []
      reads := Function.update s.reads x [] }

/-- The contract of a step: a completion that it delivers or handles is tolerated. -/
def Tolerated (codecs : Coordinator.Codecs) (s : Life ι) : LifeAction ι → Prop
  | .act a => ∀ e ∈ s.cluster.event a, (s.cluster.node e.1).Tolerates codecs e.2
  | .restart _ => True

/-- A completion that a step delivers or handles is expected. -/
def Expected (s : Life ι) : LifeAction ι → Prop
  | .act a => ∀ e ∈ s.cluster.event a,
    (s.cluster.node e.1).Expects (s.writes e.1) (s.reads e.1) e.2
  | .restart _ => True

/-- All servers are started on their logs. -/
def start (D : Deployment ι) (codec : Codec DoWrite) (old : ι → List DoWrite)
    (hintFile : ι → List UInt8) : Life ι :=
  { cluster := Cluster.start D codec old hintFile }

variable {codecs : Coordinator.Codecs} {s s' : Life ι}

/-- **One step.** The tables of every server hold what its process has begun. -/
theorem remembers_step
    (h : ∀ x, (s.cluster.node x).Remembers (s.writes x) (s.reads x)) {a : LifeAction ι}
    (hstep : s.step codecs a = some s') :
    ∀ x, (s'.cluster.node x).Remembers (s'.writes x) (s'.reads x) := by
  intro x
  cases a with
  -- A server that restarts remembers no read and no write, and has none in its tables.
  | restart y =>
    cases hstep
    show Coordinator.Remembers (Function.update s.writes y [] x) (Function.update s.reads y [] x)
      (Function.update s.cluster.node y _ x)
    by_cases hx : x = y
    · subst hx
      rw [Function.update_self, Function.update_self, Function.update_self]
      exact Coordinator.remembers_create _ _ _
    · rw [Function.update_of_ne hx, Function.update_of_ne hx, Function.update_of_ne hx]
      exact h x
  | act a =>
    obtain ⟨c', hc', rfl⟩ := Option.map_eq_some_iff.mp hstep
    -- A lost message is no event; else one server handles an event and the others stay.
    rcases Cluster.event_of_step hc' with ⟨hev, hnode, -⟩ | ⟨y, ev, m, es, hev, hhandle, hnode, -⟩
    · simp only [hev, extend, hnode]
      exact h x
    · simp only [hev, extend, hnode]
      by_cases hx : x = y
      · subst hx
        rw [Function.update_self, Function.update_self, Function.update_self]
        exact (h x).handle hhandle
      · rw [Function.update_of_ne hx, Function.update_of_ne hx, Function.update_of_ne hx]
        exact h x

/-- **When completions are tolerated.** In any run with any restarts, every completion that is
delivered or handled is tolerated exactly when each arrives from a server that has introduced
itself to the process and each belongs to a request that the process itself has begun. -/
theorem completions_tolerated_iff (D : Deployment ι) (codecs : Coordinator.Codecs)
    (old : ι → List DoWrite) (hintFile : ι → List UInt8) (as : List (LifeAction ι)) :
    Along (step codecs) (Tolerated codecs) (start D codecs.replica old hintFile) as ↔
      Along (step codecs) Expected (start D codecs.replica old hintFile) as := by
  apply along_congr (C := fun _ _ => True)
    (P := fun s : Life ι => ∀ x, (s.cluster.node x).Remembers (s.writes x) (s.reads x))
  · exact fun s a s' h hstep => remembers_step h hstep
  · intro s a h _
    cases a with
    | restart x => exact Iff.rfl
    | act a => exact forall₂_congr fun e _ => (h e.1).tolerates_iff
  · exact fun x => Coordinator.remembers_create _ _ _
  · exact along_of_forall (fun _ _ => trivial) _ _

/-! ## A write that outlives its process -/

/-- Two servers, each the replica of the other. -/
def couple : Deployment Bool where
  config b := ⟨"127.0.0.1", if b then 9002 else 9001,
    [("127.0.0.1", if b then "9001" else "9002")], .hintedHandoff⟩
  distinct := by decide
  nodup := by decide
  others := by decide

noncomputable def coupleCodecs : Coordinator.Codecs := ⟨firstCodec, hintProto⟩

noncomputable def coupleStart : Life Bool := start couple firstCodec (fun _ => []) fun _ => []

/-- The first server takes a put and sends its DoWrite, stops and starts again; the second
connects to the new process and acknowledges the DoWrite there. -/
def outlivingWrite : List (LifeAction Bool) :=
  [.act (.run false .log), .act (.run true .log), .act (.run false .hint), .act (.run true .hint),
    .act (.connect false 0 true), .act (.run false (.posted 0)), .act (.deliver 0),
    .act (.client false 0 (.putKey ⟨7, 5, "v", 1⟩) ⟨100, 0⟩ "u"), .act (.run false .write),
    .restart false, .act (.run false .log), .act (.connect true 0 false),
    .act (.run true (.posted 0)), .act (.deliver 1), .act (.deliver 0), .act (.deliver 0)]

/-- **A completion of an earlier process.** The new process has no entry of the uuid, and the
lookup throws. -/
theorem late_completion_throws : ∃ s,
    exec (step coupleCodecs) coupleStart outlivingWrite = some s ∧
    (s.cluster.node false).completion .runWrite = some "u" ∧
    (s.cluster.node false).fault coupleCodecs .runWrite = some .outOfRange ∧
    ¬ Along (step coupleCodecs) (Tolerated coupleCodecs) coupleStart
      (outlivingWrite ++ [.act (.run false .write)]) := by
  have hend : (exec (step coupleCodecs) coupleStart outlivingWrite).any (fun s =>
      (s.cluster.node false).completion .runWrite = some "u" ∧
      (s.cluster.node false).fault coupleCodecs .runWrite = some .outOfRange) = true := by
    decide +kernel
  obtain ⟨s, hrun, hs⟩ := (Option.any_eq_true _ _).mp hend
  obtain ⟨hcompletion, hfault⟩ := of_decide_eq_true hs
  refine ⟨s, hrun, hcompletion, hfault, fun halong => ?_⟩
  have hlast := (halong.of_append hrun).1 (false, .runWrite) rfl "u" hcompletion
  rw [hfault] at hlast
  cases hlast.1

end Life

end Cs457.Kv
