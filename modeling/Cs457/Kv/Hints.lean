import Cs457.Kv.Events
import Cs457.Kv.HintCodec
import Cs457.Kv.Recovery
import Cs457.Lib.Transition
import Mathlib.Data.List.Count

/-!
# Key-value store — hints

In hinted-handoff mode a put hands an AddHint for each replica to the hint log, and the
completion of the put at a replica a DropHint. The counters follow the log: a task of the log
writes a record and then changes its counter, and a restart replays the records.

* **`Hinting`** — a coordinator that may stop and start again, with a record of which put a
  hint is for.
* **`tally`** — what a log says about a counter.
* **`Kept`** — the invariant: the counters agree with the log, and a DropHint comes after its
  AddHint.
* **`hints_kept`** — no hint goes missing.
-/

namespace Cs457.Kv

open Transition Coordinator

/-- A record of the hint log, with the put it is for. -/
structure Mark where
  uuid : String
  replica : ℕ
  key : UInt32
  drop : Bool
  deriving DecidableEq, Repr

namespace Mark

def message (m : Mark) : HintMessage :=
  if m.drop then .dropHint (UInt32.ofNat m.replica) m.key
  else .addHint (UInt32.ofNat m.replica) m.key

def change (m : Mark) : ℤ := if m.drop then -1 else 1

def task (m : Mark) : HintTask := .update m.message m.replica m.key m.change

/-- The records of a put. -/
def adds (uuid : String) (key : UInt32) : List Mark :=
  (List.range hintsSize).map fun i => ⟨uuid, i, key, false⟩

/-- The record that a DropHint goes back to. -/
def undropped (m : Mark) : Mark := { m with drop := false }

/-- The completion that a DropHint is for. -/
def completion (m : Mark) : Option (String × ℕ) := if m.drop then some (m.uuid, m.replica) else none

end Mark

/-- The completion in a task. -/
def WriteTask.completion : WriteTask → Option (String × ℕ)
  | .start _ _ _ _ => none
  | .complete msg sender => some (msg.uuid, sender)

/-- A coordinator and the record of its runs: the completions received and those handled, the
hints that wait in the strand and those in the log. -/
structure Hinting where
  server : Coordinator
  answers : List (String × ℕ) := []
  acked : List (String × ℕ) := []
  queued : List Mark := []
  written : List Mark := []

/-- A restart finds the hint log as it was left, at the end of a record, and any replica log. -/
inductive HintAction where
  | event (ev : Event)
  | restart (file : List UInt8)

namespace Hinting

def receives (s : Hinting) (ev : Event) : List (String × ℕ) :=
  match ev with
  | .server _ (.writeComplete _) => s.server.receives ev
  | _ => []

/-- The completion that an event handles. -/
def acks (s : Hinting) (ev : Event) : List (String × ℕ) :=
  match ev with
  | .runWrite => (s.server.writeStrand.head?.bind WriteTask.completion).toList
  | _ => []

/-- The hints that an event hands to the log. -/
def queues (s : Hinting) (ev : Event) : List Mark :=
  match ev with
  | .client _ (.putKey msg) _ uuid => Mark.adds uuid msg.key
  | .runWrite => match s.server.writeStrand with
    | .complete msg sender :: _ => match s.server.pendingWrites.lookup msg.uuid with
      | some pending => [⟨msg.uuid, sender, pending.key, true⟩]
      | none => []
    | _ => []
  | _ => []

/-- How many of the hints that wait an event writes. -/
def writes (s : Hinting) (ev : Event) : ℕ :=
  match ev with
  | .runHint => match s.server.hintStrand with
    | .update _ _ _ _ :: _ => 1
    | _ => 0
  | _ => 0

/-- What is known of the world: a replica acknowledges a uuid at most once. -/
def Admits (s : Hinting) (ev : Event) : Prop :=
  (∀ a ∈ s.receives ev, a ∉ s.answers) ∧ s.server.channelExists ev = true

instance (s : Hinting) (ev : Event) : Decidable (s.Admits ev) := inferInstanceAs (Decidable (_ ∧ _))

def record (s : Hinting) (ev : Event) (res : Coordinator × List Effect) : Hinting where
  server := res.1
  answers := s.answers ++ s.receives ev
  acked := s.acked ++ s.acks ev
  queued := s.queued.drop (s.writes ev) ++ s.queues ev
  written := s.written ++ s.queued.take (s.writes ev)

def step (codecs : Codecs) (s : Hinting) : HintAction → Option Hinting
  | .event ev =>
    if s.Admits ev then (s.server.handle codecs ev).map (s.record ev) else none
  | .restart file => some { s with
      server := .create s.server.config file s.server.hintFile
      queued := [] }

/-- All hints of the puts so far, but for those that a stop has lost. -/
def all (s : Hinting) : List Mark := s.written ++ s.queued

/-- The puts on `key` whose AddHint for `replica` is in the log. -/
def logged (s : Hinting) (replica : ℕ) (key : UInt32) : List String :=
  (s.written.filter fun m => !m.drop && m.replica = replica && m.key = key).map Mark.uuid

/-- Those of them that the replica has not acknowledged. -/
def missed (s : Hinting) (replica : ℕ) (key : UInt32) : List String :=
  (s.logged replica key).filter fun u => (u, replica) ∉ s.acked

end Hinting

/-! ## Counters and records -/

/-- The AddHints less the DropHints of a log. -/
def tally (log : List HintMessage) (replica : ℕ) (key : UInt32) : ℤ :=
  log.count (.addHint (UInt32.ofNat replica) key) - log.count (.dropHint (UInt32.ofNat replica) key)

/-- The numbers of the counted replicas are small, so nothing is lost in 32 bits. -/
theorem ofNat_eq_iff {r : UInt32} {i : ℕ} (hi : i < hintsSize) :
    r = UInt32.ofNat i ↔ i = r.toNat := by
  have hi' : i < 2 ^ 32 := lt_trans hi (by decide)
  constructor
  · rintro rfl
    rw [UInt32.toNat_ofNat', Nat.mod_eq_of_lt hi']
  · rintro rfl
    exact UInt32.ofNat_toNat.symm

/-- What one record changes, as the replay handler counts it. -/
def effectOn (replica : ℕ) (key : UInt32) : HintMessage → ℤ
  | .addHint r k => if replica = r.toNat ∧ key = k then 1 else 0
  | .dropHint r k => if replica = r.toNat ∧ key = k then -1 else 0
  | .notSet => 0

/-- What a log counts, record by record from its start. -/
theorem tally_cons (msg : HintMessage) (log : List HintMessage) {i : ℕ} (hi : i < hintsSize)
    (k : UInt32) : tally (msg :: log) i k = tally log i k + effectOn i k msg := by
  cases msg with
  | addHint r k' =>
    simp only [tally, effectOn, List.count_cons, beq_iff_eq, HintMessage.addHint.injEq,
      ofNat_eq_iff hi, reduceCtorEq, if_false, @eq_comm _ k' k]
    split <;> push_cast <;> ring
  | dropHint r k' =>
    simp only [tally, effectOn, List.count_cons, beq_iff_eq, HintMessage.dropHint.injEq,
      ofNat_eq_iff hi, reduceCtorEq, if_false, @eq_comm _ k' k]
    split <;> push_cast <;> ring
  | notSet => simp [tally, effectOn]

/-- And from its end. -/
theorem tally_concat (log : List HintMessage) (msg : HintMessage) {i : ℕ} (hi : i < hintsSize)
    (k : UInt32) : tally (log ++ [msg]) i k = tally log i k + effectOn i k msg := by
  rw [← tally_cons msg log hi k]
  simp only [tally, List.count_append, List.count_cons, List.count_nil, Nat.zero_add]

/-- **The replay of a log** brings the counters to its tally. Induction on the log. -/
theorem replayHints_tally {log : List HintMessage} {c c' : Coordinator}
    (h : log.foldlM replayHint c = .ok c') {i : ℕ} (hi : i < hintsSize) (k : UInt32) :
    c'.hints i k = c.hints i k + tally log i k := by
  induction log generalizing c with
  | nil =>
    cases h
    simp [tally]
  | cons msg log ih =>
    rw [List.foldlM_cons] at h
    obtain ⟨c₁, hc₁, h⟩ := bind_ok h
    -- One record adds or drops one hint; a record of an unset message does nothing.
    have hfirst : c₁.hints i k = c.hints i k + effectOn i k msg := by
      cases msg with
      | notSet =>
        cases hc₁
        exact (add_zero _).symm
      | _ =>
        simp only [replayHint, addHints] at hc₁
        split at hc₁
        · cases hc₁
          simp only [effectOn]
          split <;> simp
        · cases hc₁
    rw [ih h, hfirst, tally_cons msg log hi]
    ring

/-- A log of counted records is replayed without a fault. -/
theorem replayHints_of_counted {log : List HintMessage} (hlog : ∀ msg ∈ log, msg.Counted)
    (c : Coordinator) : ∃ c', log.foldlM replayHint c = .ok c' := by
  induction log generalizing c with
  | nil => exact ⟨c, rfl⟩
  | cons msg log ih =>
    obtain ⟨c₁, hc₁⟩ := replayHint_of_counted (hlog msg List.mem_cons_self) c
    obtain ⟨c', hc'⟩ := ih (fun m hm => hlog m (List.mem_cons_of_mem msg hm)) c₁
    refine ⟨c', ?_⟩
    rw [List.foldlM_cons, hc₁]
    exact hc'

/-! ## The hints of the puts -/

/-- A DropHint comes after its AddHint: wherever the records stop, it is there. -/
def Ordered (ms : List Mark) : Prop :=
  ∀ p, p <+: ms → ∀ m ∈ p, m.drop = true → m.undropped ∈ p

/-- A part of the marks is in order as well. -/
theorem Ordered.of_prefix {ms ms' : List Mark} (h : Ordered ms) (hms' : ms' <+: ms) :
    Ordered ms' :=
  fun p hp => h p (hp.trans hms')

/-- More records, each DropHint of which has its AddHint. -/
theorem Ordered.append {ms ms' : List Mark} (h : Ordered ms)
    (hnew : ∀ m ∈ ms', m.drop = true → m.undropped ∈ ms) : Ordered (ms ++ ms') := by
  rintro p ⟨t, ht⟩ m hm hdrop
  rcases List.append_eq_append_iff.mp ht with ⟨l, rfl, _⟩ | ⟨l, rfl, rfl⟩
  · exact h p (List.prefix_append p l) m hm hdrop
  · rcases List.mem_append.mp hm with hm | hm
    · exact List.mem_append_left _ (h ms List.prefix_rfl m hm hdrop)
    · exact List.mem_append_left _ (hnew m (List.mem_append_left _ hm) hdrop)

namespace Hinting

/-- The tasks of the hint log, and the counters. Before the replay the counters are zero. -/
def Strand (s : Hinting) : Prop :=
  (s.server.hintStrand = .replay :: s.queued.map Mark.task ∧ s.server.hints = fun _ _ => 0) ∨
    (s.server.hintStrand = s.queued.map Mark.task ∧ ∀ i < hintsSize, ∀ k,
      s.server.hints i k = tally (s.written.map Mark.message) i k)

/-- The hints `ms` follow the puts of the server: a put that may still be completed has its
AddHints, and no completion is counted twice. -/
structure Follows (c : Coordinator) (ms : List Mark) (acked answers : List (String × ℕ)) :
    Prop where
  inRange : ∀ m ∈ ms, m.replica < hintsSize ∧ m.key < 256
  ordered : Ordered ms
  drops : (ms.filterMap Mark.completion).Nodup
  dropped : ∀ a ∈ ms.filterMap Mark.completion, a ∈ acked
  starts : ∀ {msg requestor uuid stamp}, .start msg requestor uuid stamp ∈ c.writeStrand →
    ∀ i < hintsSize, (⟨uuid, i, msg.key, false⟩ : Mark) ∈ ms
  table : ∀ {uuid pending}, c.pendingWrites.lookup uuid = some pending →
    ∀ i < hintsSize, (⟨uuid, i, pending.key, false⟩ : Mark) ∈ ms
  once : (acked ++ c.writeStrand.filterMap WriteTask.completion).Nodup
  known : ∀ a ∈ acked ++ c.writeStrand.filterMap WriteTask.completion, a ∈ answers
  senders : ∀ {msg sender}, .complete msg sender ∈ c.writeStrand → sender < hintsSize

/-- **The invariant.** -/
structure Kept (codec : Codec HintMessage) (s : Hinting) : Prop where
  mode : s.server.config.mode = .hintedHandoff
  three : s.server.config.replicas.length = hintsSize
  ids : ∀ {k id}, s.server.introduced k = some id → id < hintsSize
  file : s.server.hintFile = Log.records codec (s.written.map Mark.message)
  strand : s.Strand
  follows : Follows s.server s.all s.acked s.answers

variable {s : Hinting} {codecs : Codecs}

/-- A process starts from the records of its log. -/
theorem kept_create {codec : Codec HintMessage} {config : Config}
    (hmode : config.mode = .hintedHandoff) (hthree : config.replicas.length = hintsSize)
    (file : List UInt8) : ({ server := .create config file [] } : Hinting).Kept codec where
  mode := hmode
  three := hthree
  ids := nofun
  file := rfl
  strand := Or.inl ⟨if_pos hmode, rfl⟩
  follows := {
    inRange := nofun
    ordered := by
      intro p hp m hm
      rw [List.prefix_nil.mp hp] at hm
      cases hm
    drops := .nil
    dropped := nofun
    starts := nofun
    table := nofun
    once := .nil
    known := nofun
    senders := nofun }

/-- A stop loses the hints that were not written and forgets the puts in progress. -/
theorem Kept.restart (h : s.Kept codecs.hints) (file : List UInt8) :
    Kept codecs.hints { s with
      server := .create s.server.config file s.server.hintFile
      queued := [] } := by
  have hall : ({ s with server := .create s.server.config file s.server.hintFile, queued := [] } :
      Hinting).all = s.written := List.append_nil _
  have hsub : s.written ⊆ s.all := List.subset_append_left _ _
  have hdrops : List.Sublist (s.written.filterMap Mark.completion)
      (s.all.filterMap Mark.completion) :=
    (List.sublist_append_left s.written s.queued).filterMap _
  constructor
  · -- What is left after a restart is what the file holds; the queue and the tables are empty.
    exact h.mode
  · exact h.three
  · exact nofun
  · exact h.file
  · exact Or.inl ⟨if_pos h.mode, rfl⟩
  · rw [hall]
    constructor
    · exact fun m hm => h.follows.inRange m (hsub hm)
    · exact h.follows.ordered.of_prefix (List.prefix_append _ _)
    · exact h.follows.drops.sublist hdrops
    · exact fun a ha => h.follows.dropped a (hdrops.subset ha)
    · exact nofun
    · exact nofun
    · simp only [create, List.filterMap_nil, List.append_nil]
      exact h.follows.once.sublist (List.sublist_append_left _ _)
    · intro a ha
      simp only [create, List.filterMap_nil, List.append_nil] at ha
      exact h.follows.known a (List.mem_append_left _ ha)
    · exact nofun

/-- The puts in progress do not change. -/
theorem Follows.unaffected {c c' : Coordinator} {ms : List Mark} {acked answers : List (String × ℕ)}
    (h : Follows c ms acked answers) (hstrand : c'.writeStrand = c.writeStrand)
    (htable : c'.pendingWrites = c.pendingWrites) : Follows c' ms acked answers := by
  constructor
  · exact h.inRange
  · exact h.ordered
  · exact h.drops
  · exact h.dropped
  · rw [hstrand]
    exact h.starts
  · rw [htable]
    exact h.table
  · rw [hstrand]
    exact h.once
  · rw [hstrand]
    exact h.known
  · rw [hstrand]
    exact h.senders

/-- The marks that a put makes: one for each replica that is counted. -/
theorem mem_adds {uuid : String} {key : UInt32} {m : Mark} :
    m ∈ Mark.adds uuid key ↔ ∃ i < hintsSize, m = ⟨uuid, i, key, false⟩ := by
  simp only [Mark.adds, List.mem_map, List.mem_range, @eq_comm _ m]

/-- A put: its AddHints with its start. -/
theorem Follows.put {c c' : Coordinator} {ms : List Mark} {acked answers : List (String × ℕ)}
    (h : Follows c ms acked answers) {msg : PutKey} {requestor : Client} {uuid : String}
    {stamp : Timestamp} (hkey : msg.key < 256)
    (hstrand : c'.writeStrand = c.writeStrand ++ [.start msg requestor uuid stamp])
    (htable : c'.pendingWrites = c.pendingWrites) :
    Follows c' (ms ++ Mark.adds uuid msg.key) acked answers := by
  -- A put queues adds only; it completes nothing.
  have hnone : (Mark.adds uuid msg.key).filterMap Mark.completion = [] := by
    refine List.filterMap_eq_nil_iff.mpr fun m hm => ?_
    obtain ⟨i, _, rfl⟩ := mem_adds.mp hm
    rfl
  have hcompletions : c'.writeStrand.filterMap WriteTask.completion
      = c.writeStrand.filterMap WriteTask.completion := by
    rw [hstrand, List.filterMap_append]
    exact List.append_nil _
  constructor
  · intro m hm
    rcases List.mem_append.mp hm with hm | hm
    · exact h.inRange m hm
    · obtain ⟨i, hi, rfl⟩ := mem_adds.mp hm
      exact ⟨hi, hkey⟩
  · refine h.ordered.append fun m hm hdrop => ?_
    obtain ⟨i, _, rfl⟩ := mem_adds.mp hm
    cases hdrop
  · rw [List.filterMap_append, hnone, List.append_nil]
    exact h.drops
  · rw [List.filterMap_append, hnone, List.append_nil]
    exact h.dropped
  · intro msg' requestor' uuid' stamp' hstart i hi
    rw [hstrand] at hstart
    rcases List.mem_append.mp hstart with hstart | hstart
    · exact List.mem_append_left _ (h.starts hstart i hi)
    · cases List.mem_singleton.mp hstart
      exact List.mem_append_right _ (mem_adds.mpr ⟨i, hi, rfl⟩)
  · intro uuid' pending hpending i hi
    exact List.mem_append_left _ (h.table (htable ▸ hpending) i hi)
  · rw [hcompletions]
    exact h.once
  · rw [hcompletions]
    exact h.known
  · intro msg' sender hcomplete
    rw [hstrand] at hcomplete
    rcases List.mem_append.mp hcomplete with hcomplete | hcomplete
    · exact h.senders hcomplete
    · cases List.mem_singleton.mp hcomplete

/-- An acknowledgement that has not been received before. -/
theorem Follows.arrive {c c' : Coordinator} {ms : List Mark} {acked answers : List (String × ℕ)}
    (h : Follows c ms acked answers) {msg : WriteComplete} {id : ℕ} (hid : id < hintsSize)
    (hnew : (msg.uuid, id) ∉ answers)
    (hstrand : c'.writeStrand = c.writeStrand ++ [.complete msg id])
    (htable : c'.pendingWrites = c.pendingWrites) :
    Follows c' ms acked (answers ++ [(msg.uuid, id)]) := by
  -- The completion that arrives goes behind those in the strand.
  have hcompletions : acked ++ c'.writeStrand.filterMap WriteTask.completion =
      (acked ++ c.writeStrand.filterMap WriteTask.completion) ++ [(msg.uuid, id)] := by
    rw [hstrand, List.filterMap_append, List.append_assoc]
    rfl
  constructor
  · exact h.inRange
  · exact h.ordered
  · exact h.drops
  · exact h.dropped
  · intro msg' requestor uuid stamp hstart
    rw [hstrand] at hstart
    rcases List.mem_append.mp hstart with hstart | hstart
    · exact h.starts hstart
    · cases List.mem_singleton.mp hstart
  · rw [htable]
    exact h.table
  · rw [hcompletions]
    refine List.nodup_append.mpr ⟨h.once, List.nodup_singleton _, ?_⟩
    rintro a ha b hb rfl
    rw [List.mem_singleton.mp hb] at ha
    exact hnew (h.known _ ha)
  · rw [hcompletions]
    intro a ha
    rcases List.mem_append.mp ha with ha | ha
    · exact List.mem_append_left _ (h.known a ha)
    · exact List.mem_append_right _ ha
  · intro msg' sender hcomplete
    rw [hstrand] at hcomplete
    rcases List.mem_append.mp hcomplete with hcomplete | hcomplete
    · exact h.senders hcomplete
    · cases List.mem_singleton.mp hcomplete
      exact hid

/-- The start of a write goes from the strand to the table. -/
theorem Follows.startWrite {c c' : Coordinator} {ms : List Mark}
    {acked answers : List (String × ℕ)} (h : Follows c ms acked answers) {msg : PutKey}
    {requestor : Client} {uuid : String} {stamp : Timestamp} {rest : List WriteTask}
    (head : c.writeStrand = .start msg requestor uuid stamp :: rest)
    (hstrand : c'.writeStrand = rest)
    (htable : c'.pendingWrites = c.pendingWrites.emplace uuid
      ⟨msg.stream, msg.key, msg.consistency - 1, requestor⟩) : Follows c' ms acked answers := by
  -- The task that runs is a start, so the completions still to run are those of before.
  have hcompletions : c'.writeStrand.filterMap WriteTask.completion =
      c.writeStrand.filterMap WriteTask.completion := by
    rw [hstrand, head]
    rfl
  have hrest : ∀ {t}, t ∈ c'.writeStrand → t ∈ c.writeStrand := by
    rw [hstrand, head]
    exact List.mem_cons_of_mem _
  constructor
  · exact h.inRange
  · exact h.ordered
  · exact h.drops
  · exact h.dropped
  · exact fun hstart => h.starts (hrest hstart)
  · intro uuid' pending hpending
    rw [htable] at hpending
    rcases UnorderedMap.of_lookup_emplace hpending with ⟨rfl, rfl⟩ | hold
    · exact h.starts (head ▸ List.mem_cons_self)
    · exact h.table hold
  · rw [hcompletions]
    exact h.once
  · rw [hcompletions]
    exact h.known
  · exact fun hcomplete => h.senders (hrest hcomplete)

/-- The completion of a write: its DropHint follows the AddHint of the entry in the table. -/
theorem Follows.completeWrite {c c' : Coordinator} {ms : List Mark}
    {acked answers : List (String × ℕ)} (h : Follows c ms acked answers) {msg : WriteComplete}
    {sender : ℕ} {rest : List WriteTask} {pending : PendingWrite}
    (head : c.writeStrand = .complete msg sender :: rest)
    (found : c.pendingWrites.lookup msg.uuid = some pending) (hstrand : c'.writeStrand = rest)
    (htable : c'.pendingWrites = c.pendingWrites.insert msg.uuid
      { pending with consistency := pending.consistency - 1 }) :
    Follows c' (ms ++ [⟨msg.uuid, sender, pending.key, true⟩]) (acked ++ [(msg.uuid, sender)])
      answers := by
  have hadd := h.table found sender (h.senders (head ▸ List.mem_cons_self))
  have hcompletions : acked ++ [(msg.uuid, sender)] ++
      c'.writeStrand.filterMap WriteTask.completion =
      acked ++ c.writeStrand.filterMap WriteTask.completion := by
    rw [hstrand, head, List.append_assoc]
    rfl
  have hrest : ∀ {t}, t ∈ c'.writeStrand → t ∈ c.writeStrand := by
    rw [hstrand, head]
    exact List.mem_cons_of_mem _
  -- the completion is not one of those handled before
  have hnew : (msg.uuid, sender) ∉ acked := by
    intro hmem
    have honce := h.once
    rw [← hcompletions, List.append_assoc] at honce
    exact (List.nodup_append.mp honce).2.2 _ hmem _ List.mem_cons_self rfl
  constructor
  · intro m hm
    rcases List.mem_append.mp hm with hm | hm
    · exact h.inRange m hm
    · rw [List.mem_singleton.mp hm]
      have hrange := h.inRange _ hadd
      exact hrange
  · refine h.ordered.append fun m hm _ => ?_
    rw [List.mem_singleton.mp hm]
    exact hadd
  · rw [List.filterMap_append]
    refine List.nodup_append.mpr ⟨h.drops, List.nodup_singleton _, ?_⟩
    rintro a ha b hb rfl
    rw [List.mem_singleton.mp hb] at ha
    exact hnew (h.dropped _ ha)
  · rw [List.filterMap_append]
    intro a ha
    rcases List.mem_append.mp ha with ha | ha
    · exact List.mem_append_left _ (h.dropped a ha)
    · exact List.mem_append_right _ ha
  · exact fun hstart i hi => List.mem_append_left _ (h.starts (hrest hstart) i hi)
  · intro uuid' p hp i hi
    rw [htable] at hp
    rcases UnorderedMap.of_lookup_insert hp with ⟨rfl, rfl⟩ | ⟨-, hold⟩
    · exact List.mem_append_left _ (h.table found i hi)
    · exact List.mem_append_left _ (h.table hold i hi)
  · rw [hcompletions]
    exact h.once
  · rw [hcompletions]
    exact h.known
  · exact fun hcomplete => h.senders (hrest hcomplete)

/-- An event that has no part in hints. -/
theorem Kept.idle (h : s.Kept codecs.hints) {ev : Event} {c' : Coordinator} {es : List Effect}
    (hreceives : s.receives ev = []) (hacks : s.acks ev = []) (hqueues : s.queues ev = [])
    (hwrites : s.writes ev = 0) (hconfig : c'.config = s.server.config)
    (hids : ∀ {k id}, c'.introduced k = some id → id < hintsSize)
    (hhintStrand : c'.hintStrand = s.server.hintStrand) (hhints : c'.hints = s.server.hints)
    (hfile : c'.hintFile = s.server.hintFile)
    (hstrand : c'.writeStrand = s.server.writeStrand)
    (htable : c'.pendingWrites = s.server.pendingWrites) :
    (s.record ev (c', es)).Kept codecs.hints := by
  have hrecord : s.record ev (c', es) = { s with server := c' } := by
    simp only [record, hreceives, hacks, hqueues, hwrites, List.append_nil, List.drop_zero,
      List.take_zero]
  rw [hrecord]
  constructor
  · exact (congrArg Config.mode hconfig).trans h.mode
  · exact (congrArg (fun config => config.replicas.length) hconfig).trans h.three
  · exact hids
  · exact hfile.trans h.file
  · have hkeep := h.strand
    unfold Strand at hkeep ⊢
    simp only [hhintStrand, hhints]
    exact hkeep
  · exact h.follows.unaffected hstrand htable

/-- What goes to the strand stays behind what waits there. -/
theorem Strand.append (h : s.Strand) {c' : Coordinator} {new : List Mark}
    (hstrand : c'.hintStrand = s.server.hintStrand ++ new.map Mark.task)
    (hhints : c'.hints = s.server.hints) {answers acked : List (String × ℕ)} :
    Strand ⟨c', answers, acked, s.queued ++ new, s.written⟩ := by
  rcases h with ⟨hreplay, hzero⟩ | ⟨hqueued, htally⟩
  · refine Or.inl ⟨?_, hhints.trans hzero⟩
    rw [hstrand, hreplay, List.map_append, List.cons_append]
  · refine Or.inr ⟨?_, ?_⟩
    · rw [hstrand, hqueued, List.map_append]
    · rw [hhints]
      exact htally

/-- A put: its AddHints go to the strand of the log with its start to the strand of the writes. -/
theorem Kept.put (h : s.Kept codecs.hints) {requestor : Client} {msg : PutKey} {stamp : Timestamp}
    {uuid : String} {replica : Replica} (hkey : msg.key < 256) :
    (s.record (.client requestor (.putKey msg) stamp uuid) ({ s.server with
      replica := replica
      hintStrand := s.server.hintStrand ++ s.server.hintAdds msg.key
      writeStrand := s.server.writeStrand ++ [.start msg requestor uuid stamp] }, [])).Kept
      codecs.hints := by
  -- What the books gain: the three adds of the put, still queued.
  have hrecord : ∀ c', s.record (.client requestor (.putKey msg) stamp uuid) (c', []) =
      ⟨c', s.answers, s.acked, s.queued ++ Mark.adds uuid msg.key, s.written⟩ := by
    intro c'
    simp only [record, receives, acks, queues, writes, List.append_nil, List.drop_zero,
      List.take_zero]
  rw [hrecord]
  have hadds : s.server.hintAdds msg.key = (Mark.adds uuid msg.key).map Mark.task := by
    rw [hintAdds, if_pos h.mode, Mark.adds, List.map_map]
    rfl
  constructor
  · exact h.mode
  · exact h.three
  · exact h.ids
  · exact h.file
  · refine h.strand.append ?_ ?_
    · exact congrArg (s.server.hintStrand ++ ·) hadds
    · rfl
  · show Follows _ (s.written ++ (s.queued ++ Mark.adds uuid msg.key)) s.acked s.answers
    rw [← List.append_assoc]
    exact h.follows.put hkey rfl rfl

/-- A WriteComplete comes in. -/
theorem Kept.arrive (h : s.Kept codecs.hints) {source : Chan} {msg : WriteComplete} {id : ℕ}
    (hadmits : s.Admits (.server source (.writeComplete msg)))
    (hsender : s.server.idOf source = some id) :
    (s.record (.server source (.writeComplete msg)) ({ s.server with
      writeStrand := s.server.writeStrand ++ [.complete msg id] }, [])).Kept codecs.hints := by
  have hreceives : s.receives (.server source (.writeComplete msg)) = [(msg.uuid, id)] := by
    simp only [receives, Coordinator.receives, hsender, Option.map_some, Option.toList_some]
  -- The sender is a replica, and there are as many replicas as hint slots.
  have hlt : id < hintsSize := by
    cases source with
    | outgoing i =>
      cases hsender
      rw [← h.three]
      exact of_decide_eq_true hadmits.2
    | accepted k => exact h.ids hsender
  have hnew : (msg.uuid, id) ∉ s.answers :=
    hadmits.1 _ (hreceives ▸ List.mem_singleton_self _)
  have hrecord : ∀ c', s.record (.server source (.writeComplete msg)) (c', []) =
      ⟨c', s.answers ++ [(msg.uuid, id)], s.acked, s.queued, s.written⟩ := by
    intro c'
    simp only [record, hreceives, acks, queues, writes, List.append_nil, List.drop_zero,
      List.take_zero]
  rw [hrecord]
  constructor
  · exact h.mode
  · exact h.three
  · exact h.ids
  · exact h.file
  · exact h.strand
  · exact h.follows.arrive hlt hnew rfl rfl

/-- A put makes its marks, all of them before it is entered. -/
theorem Kept.startWrite (h : s.Kept codecs.hints) {msg : PutKey} {requestor : Client}
    {uuid : String} {stamp : Timestamp} {rest : List WriteTask} {es : List Effect}
    (head : s.server.writeStrand = .start msg requestor uuid stamp :: rest) :
    (s.record .runWrite ({ s.server with
      writeStrand := rest
      pendingWrites := s.server.pendingWrites.emplace uuid
        ⟨msg.stream, msg.key, msg.consistency - 1, requestor⟩ }, es)).Kept codecs.hints := by
  have hrecord : ∀ c', s.record .runWrite (c', es) = { s with server := c' } := by
    intro c'
    simp only [record, receives, acks, queues, writes, head, List.head?_cons, Option.bind_some,
      WriteTask.completion, Option.toList_none, List.append_nil, List.drop_zero, List.take_zero]
  rw [hrecord]
  constructor
  · exact h.mode
  · exact h.three
  · exact h.ids
  · exact h.file
  · exact h.strand
  · exact h.follows.startWrite head rfl rfl

/-- A WriteComplete is handled: its DropHint goes to the strand of the log, where the AddHint
has gone before it. -/
theorem Kept.completeWrite (h : s.Kept codecs.hints) {msg : WriteComplete} {sender : ℕ}
    {rest : List WriteTask} {pending : PendingWrite} {es : List Effect}
    (head : s.server.writeStrand = .complete msg sender :: rest)
    (found : s.server.pendingWrites.lookup msg.uuid = some pending) :
    (s.record .runWrite ({ s.server with
      writeStrand := rest
      pendingWrites := s.server.pendingWrites.insert msg.uuid
        { pending with consistency := pending.consistency - 1 }
      hintStrand := s.server.hintStrand ++ s.server.hintDrops sender pending.key }, es)).Kept
      codecs.hints := by
  -- What the books gain: the completion, and the drop of its hint, still queued.
  have hrecord : ∀ c', s.record .runWrite (c', es)
    = ⟨c', s.answers, s.acked ++ [(msg.uuid, sender)],
      s.queued ++ [⟨msg.uuid, sender, pending.key, true⟩], s.written⟩ := by
    intro c'
    simp only [record, receives, acks, queues, writes, head, found, List.head?_cons,
      Option.bind_some, WriteTask.completion, Option.toList_some, List.append_nil, List.drop_zero,
      List.take_zero]
  rw [hrecord]
  have hdrop : s.server.hintDrops sender pending.key =
      [(⟨msg.uuid, sender, pending.key, true⟩ : Mark)].map Mark.task := by
    rw [hintDrops, if_pos h.mode]
    rfl
  constructor
  · exact h.mode
  · exact h.three
  · exact h.ids
  · exact h.file
  · refine h.strand.append ?_ ?_
    · exact congrArg (s.server.hintStrand ++ ·) hdrop
    · rfl
  · show Follows _ (s.written ++ (s.queued ++ _)) _ _
    rw [← List.append_assoc]
    exact h.follows.completeWrite head found rfl rfl

/-- A message of a hint is about a counter that exists. -/
theorem message_counted {m : Mark} (hm : m.replica < hintsSize ∧ m.key < 256) :
    m.message.Counted := by
  have hnat : (UInt32.ofNat m.replica).toNat = m.replica := by
    rw [UInt32.toNat_ofNat', Nat.mod_eq_of_lt (lt_trans hm.1 (by decide))]
  unfold Mark.message
  split
  · exact ⟨hnat.symm ▸ hm.1, hm.2⟩
  · exact ⟨hnat.symm ▸ hm.1, hm.2⟩

/-- A mark changes one counter. -/
theorem effectOn_message {m : Mark} (hm : m.replica < hintsSize) (i : ℕ) (k : UInt32) :
    effectOn i k m.message = if i = m.replica ∧ k = m.key then m.change else 0 := by
  have hnat : (UInt32.ofNat m.replica).toNat = m.replica := by
    rw [UInt32.toNat_ofNat', Nat.mod_eq_of_lt (lt_trans hm (by decide))]
  unfold Mark.message Mark.change
  split
  · simp only [effectOn, hnat]
  · simp only [effectOn, hnat]

/-- A task of the hint log: a record with its counter, or the replay. -/
theorem Kept.runHint (h : s.Kept codecs.hints) (hfits : ∀ m, codecs.hints.Fits m)
    {t : HintTask} {rest : List HintTask} {hints : ℕ → UInt32 → ℤ} {hintFile : List UInt8}
    (head : s.server.hintStrand = t :: rest)
    (perform : ({ s.server with hintStrand := rest } : Coordinator).performHint codecs.hints t =
      .ok { s.server with hintStrand := rest, hints := hints, hintFile := hintFile }) :
    (s.record .runHint ({ s.server with
      hintStrand := rest, hints := hints, hintFile := hintFile }, [])).Kept codecs.hints := by
  rcases h.strand with ⟨hreplay, hzero⟩ | ⟨hqueued, htally⟩
  · -- the replay
    obtain ⟨rfl, rfl⟩ := List.cons_eq_cons.mp (head.symm.trans hreplay)
    have hrecord : ∀ c', s.record .runHint (c', []) = { s with server := c' } := by
      intro c'
      simp only [record, receives, acks, queues, writes, head, List.append_nil, List.drop_zero,
        List.take_zero]
    rw [hrecord]
    simp only [performHint] at perform
    obtain ⟨_, heq⟩ := replayHints_ok perform
    have hfile : hintFile = s.server.hintFile := congrArg Coordinator.hintFile heq
    have hlog : Log.replay codecs.hints s.server.hintFile = s.written.map Mark.message := by
      rw [h.file]
      exact Log.replay_records fun m _ => hfits m
    constructor
    · exact h.mode
    · exact h.three
    · exact h.ids
    · exact hfile.trans h.file
    · refine Or.inr ⟨rfl, fun i hi k => ?_⟩
      have hcount := replayHints_tally perform hi k
      simp only [hlog, hzero, zero_add] at hcount
      exact hcount
    · exact h.follows.unaffected rfl rfl
  · -- a record
    obtain ⟨m, queued, hs, rfl, rfl⟩ := List.map_eq_cons_iff.mp (hqueued.symm.trans head)
    have hrecord : ∀ c', s.record .runHint (c', []) =
        ⟨c', s.answers, s.acked, queued, s.written ++ [m]⟩ := by
      intro c'
      simp only [record, receives, acks, queues, writes, head, Mark.task, hs, List.append_nil,
        List.drop_succ_cons, List.drop_zero, List.take_succ_cons, List.take_zero]
    rw [hrecord]
    have hrange := h.follows.inRange m
      (by rw [all, hs]; exact List.mem_append_right _ List.mem_cons_self)
    simp only [performHint, Mark.task, addHints, if_pos hrange] at perform
    have heq := Except.ok.inj perform
    have hfile : s.server.hintFile ++ Log.record codecs.hints m.message = hintFile :=
      congrArg Coordinator.hintFile heq
    have hhints : (fun i k => if i = m.replica ∧ k = m.key then s.server.hints i k + m.change
        else s.server.hints i k) = hints := congrArg Coordinator.hints heq
    constructor
    · exact h.mode
    · exact h.three
    · exact h.ids
    · show hintFile = _
      rw [← hfile, h.file, List.map_append, Log.records_append]
      simp [Log.records]
    · refine Or.inr ⟨rfl, fun i hi k => ?_⟩
      show hints i k = tally ((s.written ++ [m]).map Mark.message) i k
      rw [List.map_append, List.map_singleton, tally_concat _ _ hi, effectOn_message hrange.1,
        ← htally i hi k, ← hhints]
      simp only
      split <;> simp
    · have hall : (⟨{ s.server with
            hintStrand := queued.map Mark.task, hints := hints, hintFile := hintFile },
          s.answers, s.acked, queued, s.written ++ [m]⟩ : Hinting).all = s.all := by
        rw [all, all, hs, List.append_assoc]
        rfl
      rw [hall]
      exact h.follows.unaffected rfl rfl

/-- **The invariant is kept by every step.** -/
theorem Kept.step (h : s.Kept codecs.hints) (hfits : ∀ m, codecs.hints.Fits m) {a : HintAction}
    {s' : Hinting} (hstep : s.step codecs a = some s') : s'.Kept codecs.hints := by
  cases a with
  | restart file =>
    cases hstep
    exact h.restart file
  | event ev =>
    simp only [Hinting.step] at hstep
    split at hstep
    · next hadmits =>
      obtain ⟨⟨c', es⟩, hhandle, rfl⟩ := Option.map_eq_some_iff.mp hstep
      cases acts_of_handle hhandle with
      | put write => exact h.put (Replica.write_ok write).1
      | writeComplete sender => exact h.arrive hadmits sender
      | runHint head perform => exact h.runHint hfits head perform
      | startWrite head => exact h.startWrite head
      | completeWrite head found => exact h.completeWrite head found
      -- A server that introduces itself gets the index at which it stands among the replicas.
      | @introduce k _ _ unknown found =>
        refine h.idle rfl rfl rfl rfl rfl (fun {k' id'} hk => ?_) rfl rfl rfl rfl rfl
        simp only [Function.update_apply] at hk
        split at hk
        · cases hk
          rw [← h.three]
          exact (List.findIdx?_eq_some_iff_findIdx_eq.mp found).1
        · exact h.ids hk
      | @badRequest _ msg _ _ _ noGet noPut =>
        refine h.idle rfl rfl ?_ rfl rfl h.ids rfl rfl rfl rfl rfl
        cases msg with
        | putKey m => exact absurd rfl (noPut m)
        | _ => rfl
      | _ => exact h.idle rfl rfl rfl rfl rfl h.ids rfl rfl rfl rfl rfl
    · cases hstep

/-- The DropHints in the log are for puts that are logged and acknowledged, each for another. -/
theorem Kept.drops_le {codec : Codec HintMessage} (h : s.Kept codec) (i : ℕ) (k : UInt32) :
    (s.written.filter fun m => m.drop && m.replica = i && m.key = k).length ≤
      ((s.logged i k).filter fun u => (u, i) ∈ s.acked).length := by
  set drops := s.written.filter fun m => m.drop && m.replica = i && m.key = k with hdrops
  have hmem : ∀ {m}, m ∈ drops → m ∈ s.written ∧ m.drop = true ∧ m.replica = i ∧ m.key = k := by
    intro m hm
    obtain ⟨hw, hcond⟩ := List.mem_filter.mp hm
    simp only [Bool.and_eq_true, decide_eq_true_eq] at hcond
    exact ⟨hw, hcond.1.1, hcond.1.2, hcond.2⟩
  -- Every drop in the file stands for a completion, and each completion is dropped once.
  have hcompletion : ∀ {m}, m ∈ drops → m.completion = some (m.uuid, i) := by
    intro m hm
    obtain ⟨_, hdrop, rfl, _⟩ := hmem hm
    rw [Mark.completion, if_pos hdrop]
  have hnodup : (drops.map Mark.uuid).Nodup := by
    have hall : (drops.filterMap Mark.completion).Nodup :=
      h.follows.drops.sublist (((List.filter_sublist).trans
        (List.sublist_append_left s.written s.queued)).filterMap _)
    have hpairs : drops.filterMap Mark.completion = (drops.map Mark.uuid).map fun u => (u, i) := by
      rw [List.map_map, ← List.filterMap_eq_map]
      exact List.filterMap_congr fun m hm => hcompletion hm
    rw [hpairs] at hall
    exact List.Nodup.of_map _ hall
  -- A drop is written behind its add, and only after the acknowledgement.
  have hsub : drops.map Mark.uuid ⊆ (s.logged i k).filter fun u => (u, i) ∈ s.acked := by
    intro u hu
    obtain ⟨m, hm, rfl⟩ := List.mem_map.mp hu
    obtain ⟨hw, hdrop, hi, hk⟩ := hmem hm
    refine List.mem_filter.mpr ⟨?_, decide_eq_true ?_⟩
    · have hadd := h.follows.ordered s.written (List.prefix_append _ _) m hw hdrop
      refine List.mem_map.mpr ⟨m.undropped, List.mem_filter.mpr ⟨hadd, ?_⟩, rfl⟩
      simp [Mark.undropped, hi, hk]
    · exact h.follows.dropped _ (List.mem_filterMap.mpr
        ⟨m, List.mem_append_left _ hw, hcompletion hm⟩)
  have hle := (List.subperm_of_subset hnodup hsub).length_le
  rw [List.length_map] at hle
  exact hle

/-- The tally of the log in terms of the puts. -/
theorem tally_written {ms : List Mark} (hms : ∀ m ∈ ms, m.replica < hintsSize) {i : ℕ}
    (hi : i < hintsSize) (k : UInt32) : tally (ms.map Mark.message) i k =
      (ms.filter fun m => !m.drop && m.replica = i && m.key = k).length -
        (ms.filter fun m => m.drop && m.replica = i && m.key = k).length := by
  induction ms with
  | nil => rfl
  | cons m ms ih =>
    have hm := hms m List.mem_cons_self
    rw [List.map_cons, tally_cons _ _ hi, ih fun x hx => hms x (List.mem_cons_of_mem m hx),
      effectOn_message hm]
    simp only [List.filter_cons, Mark.change, @eq_comm _ i m.replica, @eq_comm _ k m.key]
    by_cases hr : m.replica = i <;> by_cases hk : m.key = k <;> cases m.drop <;>
      simp [hr, hk] <;> ring

/-- What the counter of a replica and a key says. -/
structure Counts (codec : Codec HintMessage) (s : Hinting) (i : ℕ) (k : UInt32) : Prop where
  log : s.server.hints i k = tally (Log.replay codec s.server.hintFile) i k
  nonneg : 0 ≤ s.server.hints i k
  missed : ((s.missed i k).length : ℤ) ≤ s.server.hints i k
  hinted : ∀ u ∈ s.logged i k, (u, i) ∉ s.acked → s.server.hints i k ≠ 0

/-- What the counters hold is what the log and the strand have counted. -/
theorem Kept.counts {codec : Codec HintMessage} (h : s.Kept codec) (hfits : ∀ m, codec.Fits m)
    (hreplayed : .replay ∉ s.server.hintStrand) {i : ℕ} (hi : i < hintsSize) (k : UInt32) :
    s.Counts codec i k := by
  have hlog : Log.replay codec s.server.hintFile = s.written.map Mark.message := by
    rw [h.file]
    exact Log.replay_records fun m _ => hfits m
  -- The file has been replayed, so the counters are what its records add up to.
  have htally : s.server.hints i k = tally (s.written.map Mark.message) i k := by
    rcases h.strand with ⟨hreplay, _⟩ | ⟨_, htally⟩
    · exact absurd (hreplay ▸ List.mem_cons_self) hreplayed
    · exact htally i hi k
  have hcount := htally.trans (tally_written
    (fun m hm => (h.follows.inRange m (List.mem_append_left _ hm)).1) hi k)
  have hdrops := h.drops_le i k
  have hsplit := List.length_eq_length_filter_add (l := s.logged i k) fun u => (u, i) ∈ s.acked
  have hlength : (s.logged i k).length =
      (s.written.filter fun m => !m.drop && m.replica = i && m.key = k).length :=
    List.length_map _
  -- The adds that no acknowledgement covers have not been dropped either.
  have hmissed : ((s.missed i k).length : ℤ) ≤ s.server.hints i k := by
    have hrest : s.missed i k = (s.logged i k).filter fun u => !decide ((u, i) ∈ s.acked) :=
      List.filter_congr fun u _ => decide_not
    rw [hcount, hrest]
    omega
  refine ⟨htally.trans (by rw [hlog]), le_trans (Int.natCast_nonneg _) hmissed, hmissed, ?_⟩
  intro u hu hacked hzero
  have hpos : 0 < (s.missed i k).length :=
    List.length_pos_of_mem (List.mem_filter.mpr ⟨hu, decide_eq_true hacked⟩)
  omega

/-- The next task of the hint log does not fault. -/
theorem Kept.runs (h : s.Kept codecs.hints) (hfits : ∀ m, codecs.hints.Fits m)
    (hstrand : s.server.hintStrand ≠ []) : ∃ s', s.step codecs (.event .runHint) = some s' := by
  have hadmits : s.Admits .runHint := ⟨List.forall_mem_nil _, rfl⟩
  -- The first task is the replay of the file, or the oldest queued hint; both index within the
  -- slots.
  rcases h.strand with ⟨hreplay, _⟩ | ⟨hqueued, _⟩
  · have hrange : ∀ msg ∈ Log.replay codecs.hints s.server.hintFile, msg.Counted := by
      rw [h.file, Log.replay_records fun m _ => hfits m]
      intro msg hmsg
      obtain ⟨m, hm, rfl⟩ := List.mem_map.mp hmsg
      exact message_counted (h.follows.inRange m (List.mem_append_left _ hm))
    obtain ⟨c', hc'⟩ := replayHints_of_counted hrange
      { s.server with hintStrand := s.queued.map Mark.task }
    refine ⟨s.record .runHint (c', []), ?_⟩
    simp only [Hinting.step, if_pos hadmits, handle, hreplay, performHint, hc']
    rfl
  · cases hq : s.queued with
    | nil =>
      rw [hq] at hqueued
      exact absurd hqueued hstrand
    | cons m queued =>
      have hrange := h.follows.inRange m (by
        rw [all, hq]
        exact List.mem_append_right _ List.mem_cons_self)
      rw [hq, List.map_cons] at hqueued
      simp only [Hinting.step, if_pos hadmits, handle, hqueued, Mark.task, performHint, addHints,
        if_pos hrange]
      exact ⟨_, rfl⟩

/-- **Hints never go missing.** In every run of a coordinator with three replicas, stops and
restarts included, the counters agree with the hint log once it has been replayed, are not
negative, and count at least the logged puts that the replica has not acknowledged. No task of
the hint log faults. -/
theorem hints_kept (hfits : ∀ m, codecs.hints.Fits m) {config : Config}
    (hmode : config.mode = .hintedHandoff) (hthree : config.replicas.length = hintsSize)
    {file : List UInt8} {as : List HintAction} {s : Hinting}
    (hrun : exec (step codecs) { server := .create config file [] } as = some s) :
    (.replay ∉ s.server.hintStrand →
      ∀ i < hintsSize, ∀ k, s.Counts codecs.hints i k) ∧
    (s.server.hintStrand ≠ [] → ∃ s', s.step codecs (.event .runHint) = some s') := by
  have hkept : s.Kept codecs.hints :=
    exec_inv (fun _ _ _ h => h.step hfits) (kept_create hmode hthree file) hrun
  exact ⟨fun hreplayed i hi k => hkept.counts hfits hreplayed hi k, hkept.runs hfits⟩

/-- A server with three replicas. -/
def trio : Config :=
  ⟨"127.0.0.1", 9001, [("127.0.0.1", "9002"), ("127.0.0.1", "9003"), ("127.0.0.1", "9004")],
    .hintedHandoff⟩

/-- The replay of a hint log changes the counters. -/
theorem step_replay {s s' : Hinting} (hreplay : s.server.hintStrand = [.replay])
    (hstep : s.step codecs (.event .runHint) = some s') :
    ∃ hints, s' = { s with server := { s.server with hintStrand := [], hints := hints } } := by
  simp only [Hinting.step] at hstep
  split at hstep
  · obtain ⟨res, hres, rfl⟩ := Option.map_eq_some_iff.mp hstep
    simp only [handle, hreplay] at hres
    obtain ⟨c', hc', rfl⟩ := Option.map_eq_some_iff.mp hres
    have hfold := toOption_eq_some hc'
    obtain ⟨hints, rfl⟩ := replayHints_ok hfold
    refine ⟨hints, ?_⟩
    simp only [record, receives, acks, queues, writes, hreplay, List.append_nil, List.drop_zero,
      List.take_zero]
  · cases hstep

/-- A put is logged for all replicas and acknowledged by the first; then the server stops and
starts again. -/
def hintedActions : List HintAction :=
  [.event .runHint, .event (.client 0 (.putKey ⟨7, 5, "a", 2⟩) ⟨1, 0⟩ "u"),
    .event .runHint, .event .runHint, .event .runHint, .event .runWrite,
    .event (.server (.outgoing 0) (.writeComplete ⟨"u"⟩)), .event .runWrite, .event .runHint,
    .restart []]

/-- The four records of the hint log are read back. -/
theorem hints_kept_three : ∃ s,
    exec (step ⟨firstCodec, hintProto⟩) { server := .create trio [] [] }
      (hintedActions ++ [.event .runHint]) = some s ∧
    s.missed 0 5 = [] ∧ s.missed 1 5 = ["u"] ∧ ∀ i < hintsSize, ∀ k, s.Counts hintProto i k := by
  obtain ⟨s, hrun, hreplay, hmissed⟩ : ∃ s, exec (step ⟨firstCodec, hintProto⟩)
      { server := .create trio [] [] } hintedActions = some s ∧
      s.server.hintStrand = [.replay] ∧ s.missed 0 5 = [] ∧ s.missed 1 5 = ["u"] :=
    ⟨_, rfl, rfl, rfl, rfl⟩
  obtain ⟨s', hs'⟩ := (hints_kept hintProto_fits rfl rfl hrun).2 (by rw [hreplay]; simp)
  have hrun' : exec (step ⟨firstCodec, hintProto⟩) { server := .create trio [] [] }
      (hintedActions ++ [.event .runHint]) = some s' :=
    exec_append.mpr ⟨s, hrun, exec_cons.mpr ⟨s', hs', rfl⟩⟩
  obtain ⟨hints, rfl⟩ := step_replay hreplay hs'
  have hcounts := (hints_kept hintProto_fits rfl rfl hrun').1 List.not_mem_nil
  exact ⟨_, hrun', hmissed.1, hmissed.2, hcounts⟩

end Hinting

end Cs457.Kv
