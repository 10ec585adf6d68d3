import Cs457.Kv.Events

/-!
# Key-value store — writes in progress

What an event does to the part of a coordinator that a put goes through: the write strand, the
table of pending writes, the replica, and the DoWrite and WriteComplete messages.

* **`Replica.Received`** — the replica has been handed a record: it is queued, in the log, or
  not newer than what is stored. No step of the replica takes that back.
* **`Coordinator.Handles`** — the kinds of events, as far as writes are concerned.
* **`handles_of_handle`** — every event is of one of these kinds.
-/

namespace Cs457.Kv

namespace Replica

/-- A record waits in the log's strand. -/
def Queued (r : Replica) (m : DoWrite) : Prop := LogTask.update m ∈ r.strand

instance (r : Replica) (m : DoWrite) : Decidable (r.Queued m) := inferInstanceAs (Decidable (_ ∈ _))

/-- A record has been flushed to the log. -/
def Logged (codec : Codec DoWrite) (r : Replica) (m : DoWrite) : Prop :=
  ∃ ms, r.file = Log.records codec ms ∧ m ∈ ms

/-- What a put can rely on: the record is in the log, or the store is as new. -/
def Durable (codec : Codec DoWrite) (r : Replica) (m : DoWrite) : Prop :=
  r.Logged codec m ∨ storeRegister.Covers r.store m

def Received (codec : Codec DoWrite) (r : Replica) (m : DoWrite) : Prop :=
  r.Queued m ∨ r.Durable codec m

/-- The log holds whole records. -/
def Sound (codec : Codec DoWrite) (r : Replica) : Prop := ∃ ms, r.file = Log.records codec ms

/-- What an event of the server can do to the replica. -/
inductive Grows (codec : Codec DoWrite) (r : Replica) : Replica → Prop
  | same : Grows codec r r
  | write {key data timestamp r'} : r.write key data timestamp = .ok r' → Grows codec r r'
  | task {r'} : r.runTask codec = some r' → Grows codec r r'

variable {codec : Codec DoWrite} {r r' : Replica} {m : DoWrite}

/-- A write, or a replay of writes, only queues. -/
theorem replay_keeps {msgs : List DoWrite} (h : msgs.foldlM replayHandler r = .ok r') :
    r'.store = r.store ∧ r'.file = r.file ∧ r.strand ⊆ r'.strand := by
  induction msgs generalizing r with
  | nil =>
    obtain rfl := Except.ok.inj h
    exact ⟨rfl, rfl, List.Subset.refl _⟩
  | cons msg msgs ih =>
    rw [List.foldlM_cons] at h
    obtain ⟨r₁, hr₁, h⟩ := Coordinator.bind_ok h
    obtain ⟨hstore, hfile, hstrand⟩ := ih h
    obtain ⟨_, ⟨_, rfl⟩ | ⟨_, rfl⟩⟩ := write_ok hr₁
    · exact ⟨hstore, hfile, hstrand⟩
    · exact ⟨hstore, hfile, List.Subset.trans (List.subset_append_left _ _) hstrand⟩

/-- What a server has received it has while the store, the log and the strand keep it. -/
theorem Received.keep (h : r.Received codec m) (hstore : r'.store = r.store)
    (hfile : r'.file = r.file) (hstrand : r.strand ⊆ r'.strand) : r'.Received codec m := by
  rcases h with hq | ⟨ms, hms, hm⟩ | hcover
  · exact Or.inl (hstrand hq)
  · exact Or.inr (Or.inl ⟨ms, hfile.trans hms, hm⟩)
  · exact Or.inr (Or.inr (hstore ▸ hcover))

/-- The task of an update appends its record. -/
theorem updateTask_file (ms : List DoWrite) (hms : r.file = Log.records codec ms) (m : DoWrite) :
    (r.updateTask codec m).file = Log.records codec (ms ++ [m]) := by
  rw [Log.records_append, ← hms]
  simp [updateTask, Log.records]

/-- A log stays a list of records. -/
theorem Sound.grows (h : r.Sound codec) (hgrows : Grows codec r r') : r'.Sound codec := by
  obtain ⟨ms, hms⟩ := h
  cases hgrows with
  | same => exact ⟨ms, hms⟩
  | write hwrite =>
    obtain ⟨_, ⟨_, rfl⟩ | ⟨_, rfl⟩⟩ := write_ok hwrite
    · exact ⟨ms, hms⟩
    · exact ⟨ms, hms⟩
  | task htask =>
    obtain ⟨t, rest, hstrand, hperform⟩ := runTask_eq_some htask
    cases t with
    | update m =>
      obtain rfl := Except.ok.inj hperform
      exact ⟨ms ++ [m], updateTask_file ms hms m⟩
    | replay => exact ⟨ms, (replay_keeps hperform).2.1.trans hms⟩

/-- **A record that has been received stays so.** The only task that takes it from the queue
writes it to the log. -/
theorem Received.grows (h : r.Received codec m) (hsound : r.Sound codec)
    (hgrows : Grows codec r r') : r'.Received codec m := by
  -- What has been received is queued, in the file or covered by the store; an update moves it into
  -- the file.
  cases hgrows with
  | same => exact h
  | write hwrite =>
    obtain ⟨_, ⟨_, rfl⟩ | ⟨_, rfl⟩⟩ := write_ok hwrite
    · exact h
    · exact h.keep rfl rfl (List.subset_append_left _ _)
  | task htask =>
    obtain ⟨t, rest, hstrand, hperform⟩ := runTask_eq_some htask
    cases t with
    | update m₀ =>
      obtain rfl := Except.ok.inj hperform
      rcases h with hq | ⟨ms, hms, hm⟩ | hcover
      · rw [Queued, hstrand] at hq
        rcases List.mem_cons.mp hq with heq | hq
        · obtain rfl := LogTask.update.inj heq
          obtain ⟨ms, hms⟩ := hsound
          exact Or.inr (Or.inl ⟨ms ++ [m], updateTask_file ms hms m,
            List.mem_append_right _ List.mem_cons_self⟩)
        · exact Or.inl hq
      · exact Or.inr (Or.inl ⟨ms ++ [m₀], updateTask_file ms hms m₀, List.mem_append_left _ hm⟩)
      · refine Or.inr (Or.inr ?_)
        rw [updateTask_store]
        exact hcover.put
    | replay =>
      have hpop : Received codec { r with strand := rest } m := by
        rcases h with hq | hdurable
        · rw [Queued, hstrand] at hq
          exact Or.inl ((List.mem_cons.mp hq).resolve_left (fun heq => (by cases heq)))
        · exact Or.inr hdurable
      obtain ⟨hstore, hfile, hsub⟩ := replay_keeps hperform
      exact hpop.keep hstore hfile hsub

/-- A replica has received what was just written to it. -/
theorem received_write {key : UInt32} {data : String} {timestamp : Timestamp}
    (h : r.write key data timestamp = .ok r') :
      r'.Received codec (logRecord key data timestamp) := by
  obtain ⟨_, ⟨hcover, rfl⟩ | ⟨_, rfl⟩⟩ := write_ok h
  · exact Or.inr (Or.inr hcover)
  · exact Or.inl (List.mem_append_right _ List.mem_cons_self)

end Replica

namespace Coordinator

/-- What has no part in a put: a message that is not a WriteComplete, and a DoWrite only of a
repair; a reply that is not a PutKeyResp. -/
def Aside (c : Coordinator) : Effect → Prop
  | .send _ (.intro msg) => msg = c.introduction
  | .send _ (.doWrite msg) => msg.uuid = "RR"
  | .send _ (.writeComplete _) => False
  | .reply _ (.putKeyResp _) => False
  | _ => True

def AsideAll (c : Coordinator) (es : List Effect) : Prop := ∀ e ∈ es, c.Aside e

/-- What is left as it is by every event but an introduction. -/
structure Keeps (c c' : Coordinator) : Prop where
  config : c'.config = c.config
  introduced : c'.introduced = c.introduced

/-- **The kinds of events**, as far as writes are concerned. -/
inductive Handles (codec : Codec DoWrite) (c : Coordinator) :
    Event → Coordinator → List Effect → Prop
  | put {requestor msg stamp uuid c'} (keeps : Keeps c c')
      (write : c.replica.write msg.key msg.val stamp = .ok c'.replica)
      (strand : c'.writeStrand = c.writeStrand ++ [.start msg requestor uuid stamp])
      (pending : c'.pendingWrites = c.pendingWrites) :
      Handles codec c (.client requestor (.putKey msg) stamp uuid) c' []
  | introduce {k intro id} (unknown : c.introduced k = none)
      (found : c.config.replicas.findIdx? (fun r => r = (intro.ip, toString intro.port.toNat))
        = some id) :
      Handles codec c (.server (.accepted k) (.intro intro))
        { c with introduced := Function.update c.introduced k (some id) } []
  | doWrite {source msg id c'} (keeps : Keeps c c') (sender : c.idOf source = some id)
      (write : c.replica.write msg.key msg.val msg.timestamp = .ok c'.replica)
      (strand : c'.writeStrand = c.writeStrand) (pending : c'.pendingWrites = c.pendingWrites) :
      Handles codec c (.server source (.doWrite msg)) c' (if msg.uuid = "RR" then []
        else [.send (.outgoing id) (.writeComplete ⟨msg.uuid⟩)])
  | writeComplete {source msg id c'} (keeps : Keeps c c') (sender : c.idOf source = some id)
      (replica : c'.replica = c.replica)
      (strand : c'.writeStrand = c.writeStrand ++ [.complete msg id])
      (pending : c'.pendingWrites = c.pendingWrites) :
      Handles codec c (.server source (.writeComplete msg)) c' []
  | startWrite {msg requestor uuid stamp rest c' replies} (keeps : Keeps c c')
      (head : c.writeStrand = .start msg requestor uuid stamp :: rest)
      (replica : c'.replica = c.replica) (strand : c'.writeStrand = rest)
      (pending : c'.pendingWrites = c.pendingWrites.emplace uuid
        ⟨msg.stream, msg.key, msg.consistency - 1, requestor⟩)
      (reply : replies = if msg.consistency = 1
        then [Effect.reply requestor (.putKeyResp ⟨msg.stream, msg.key⟩)] else []) :
      Handles codec c .runWrite c'
        (replies ++ c.broadcast (.doWrite ⟨uuid, msg.key, stamp, msg.val⟩))
  | completeWrite {msg sender rest pending c' replies} (keeps : Keeps c c')
      (head : c.writeStrand = .complete msg sender :: rest)
      (replica : c'.replica = c.replica) (strand : c'.writeStrand = rest)
      (found : c.pendingWrites.lookup msg.uuid = some pending)
      (pendingWrites : c'.pendingWrites = c.pendingWrites.insert msg.uuid
        { pending with consistency := pending.consistency - 1 })
      (reply : replies = if pending.consistency = 1
        then [Effect.reply pending.requestor (.putKeyResp ⟨pending.stream, pending.key⟩)] else []) :
      Handles codec c .runWrite c' replies
  | other {ev c' es} (keeps : Keeps c c') (noPut : ∀ r m s u, ev ≠ .client r (.putKey m) s u)
      (noWrite : ev ≠ .runWrite)
      (replica : Replica.Grows codec c.replica c'.replica)
      (strand : c'.writeStrand = c.writeStrand) (pending : c'.pendingWrites = c.pendingWrites)
      (aside : AsideAll c es) : Handles codec c ev c' es

/-- No event changes the configuration. -/
theorem Handles.config {codec : Codec DoWrite} {c c' : Coordinator} {ev : Event} {es : List Effect}
    (h : Handles codec c ev c' es) : c'.config = c.config := by
  cases h with
  | introduce => rfl
  | put keeps | doWrite keeps | writeComplete keeps | startWrite keeps | completeWrite keeps
  | other keeps => exact keeps.config

/-- Every event lets the replica grow. -/
theorem Handles.grows {codec : Codec DoWrite} {c c' : Coordinator} {ev : Event} {es : List Effect}
    (h : Handles codec c ev c' es) : Replica.Grows codec c.replica c'.replica := by
  cases h with
  | put _ write => exact .write write
  | introduce => exact .same
  | doWrite _ _ write => exact .write write
  | writeComplete _ _ replica => exact replica ▸ .same
  | startWrite _ _ replica => exact replica ▸ .same
  | completeWrite _ _ replica => exact replica ▸ .same
  | other _ _ _ replica => exact replica

/-- Only an introduction makes the sender of a channel known. -/
theorem Handles.introduced {codec : Codec DoWrite} {c c' : Coordinator} {ev : Event}
    {es : List Effect} (h : Handles codec c ev c' es) :
    c'.introduced = c.introduced ∨ ∃ k intro id, ev = .server (.accepted k) (.intro intro) ∧
      c.introduced k = none ∧
      c.config.replicas.findIdx? (fun r => r = (intro.ip, toString intro.port.toNat)) = some id ∧
      c'.introduced = Function.update c.introduced k (some id) := by
  cases h with
  | introduce unknown found => exact Or.inr ⟨_, _, _, rfl, unknown, found, rfl⟩
  | put keeps | doWrite keeps | writeComplete keeps | startWrite keeps | completeWrite keeps
  | other keeps => exact Or.inl keeps.introduced

/-! ## Every event is of one of these kinds -/

theorem asideAll_nil (c : Coordinator) : AsideAll c [] := nofun

theorem asideAll_singleton {c : Coordinator} {e : Effect} (h : c.Aside e) : AsideAll c [e] := by
  intro e' he'
  rw [List.mem_singleton.mp he']
  exact h

/-- A broadcast is aside if its message is. -/
theorem asideAll_broadcast (c : Coordinator) {msg : ServerMessage}
    (h : ∀ ch, c.Aside (.send ch msg)) : AsideAll c (c.broadcast msg) := by
  intro e he
  obtain ⟨i, _, rfl⟩ := List.mem_map.mp he
  exact h _

/-- A handoff sends repairs only, which belong to no put. -/
theorem asideAll_handoff (c : Coordinator) (i : ℕ) : AsideAll c (c.handoff i) := by
  intro e he
  unfold handoff at he
  split at he
  · obtain ⟨k, _, he⟩ := List.mem_filterMap.mp he
    split at he
    · cases he
    · obtain ⟨data, _, rfl⟩ := Option.map_eq_some_iff.mp he
      rfl
  · cases he

/-- **Every event is of one of the kinds.** -/
theorem handles_of_handle {codecs : Codecs} {c c' : Coordinator} {es : List Effect} {ev : Event}
    (h : c.handle codecs ev = some (c', es)) : Handles codecs.replica c ev c' es := by
  -- The five events that concern a put keep their case; every other one is aside.
  cases acts_of_handle h with
  | put write => exact .put ⟨rfl, rfl⟩ write rfl rfl
  | introduce unknown found => exact .introduce unknown found
  | doWrite sender write => exact .doWrite ⟨rfl, rfl⟩ sender write rfl rfl
  | writeComplete sender => exact .writeComplete ⟨rfl, rfl⟩ sender rfl rfl rfl
  | startWrite head => exact .startWrite ⟨rfl, rfl⟩ head rfl rfl rfl rfl
  | completeWrite head found => exact .completeWrite ⟨rfl, rfl⟩ head rfl rfl found rfl rfl
  | badRequest _ noPut =>
    refine .other ⟨rfl, rfl⟩ (fun r m s u heq => ?_) nofun .same rfl rfl
      (asideAll_singleton trivial)
    exact noPut m (Event.client.inj heq).2.1
  | getOwn | doRead | readRepair | badMessage | answerRead =>
    exact .other ⟨rfl, rfl⟩ (fun _ _ _ _ => nofun) nofun .same rfl rfl
      (asideAll_singleton trivial)
  | getMany | readComplete | repairSame | connected | runHint | completeRead =>
    exact .other ⟨rfl, rfl⟩ (fun _ _ _ _ => nofun) nofun .same rfl rfl (asideAll_nil c)
  | runLog task =>
    exact .other ⟨rfl, rfl⟩ (fun _ _ _ _ => nofun) nofun (.task task) rfl rfl (asideAll_nil c)
  | repairNewer _ _ write =>
    exact .other ⟨rfl, rfl⟩ (fun _ _ _ _ => nofun) nofun (.write write) rfl rfl
      (asideAll_broadcast c fun _ => rfl)
  | repairOlder =>
    exact .other ⟨rfl, rfl⟩ (fun _ _ _ _ => nofun) nofun .same rfl rfl (asideAll_singleton rfl)
  | startRead | repair =>
    exact .other ⟨rfl, rfl⟩ (fun _ _ _ _ => nofun) nofun .same rfl rfl
      (asideAll_broadcast c fun _ => trivial)
  | @reconnected n i task bound =>
    refine .other ⟨rfl, rfl⟩ (fun _ _ _ _ => nofun) nofun .same rfl rfl fun e he => ?_
    rcases List.mem_cons.mp he with rfl | he
    · rfl
    · exact asideAll_handoff c i e he

end Coordinator

end Cs457.Kv
