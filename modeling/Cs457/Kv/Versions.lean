import Cs457.Kv.Writes
import Mathlib.Data.List.Infix

/-!
# Key-value store — where versions come from

A version of a key is an element that a store holds or a message hands over. A coordinator
takes versions in by puts, by DoWrites and by the responses to a read repair, and gives out
only those that it has: what is written in its store and queue, and what stands for a missing
copy. So a property of versions that holds of all it has and takes in holds of all it gives
out.

* **`Stocked`** — every version that a coordinator has is of the property.
* **`Stocked.handle`** — an event keeps that.
* **`given_of_handle`** — what an event sends has the property, or stands for a missing copy.
-/

namespace Cs457.Kv

namespace Replica

/-- The records that wait in the strand. -/
def queue (strand : List LogTask) : List DoWrite :=
  strand.filterMap fun t => match t with
    | .update msg => some msg
    | .replay => none

theorem queue_append (s t : List LogTask) : queue (s ++ t) = queue s ++ queue t :=
  List.filterMap_append

/-- The log is still to be replayed only if that comes first, and what it reads then is of `P`. -/
def Replays (codec : Codec DoWrite) (P : DoWrite → Prop) (r : Replica) : Prop :=
  LogTask.replay ∉ r.strand ∨ ∃ rest, r.strand = .replay :: rest ∧ .replay ∉ rest ∧
    ∀ m ∈ Log.replay codec r.file, P m

variable {codec : Codec DoWrite} {r r' : Replica} {P : DoWrite → Prop}

/-- A write posts its record behind what waits. -/
theorem Replays.write (hr : r.Replays codec P) {k : UInt32} {data : String} {timestamp : Timestamp}
    (h : r.write k data timestamp = .ok r') : r'.Replays codec P := by
  obtain ⟨-, ⟨-, rfl⟩ | ⟨-, rfl⟩⟩ := write_ok h
  · exact hr
  · rcases hr with hnone | ⟨rest, hstrand, hrest, hreads⟩
    · exact Or.inl (by simpa using hnone)
    · refine Or.inr ⟨rest ++ [.update (logRecord k data timestamp)], ?_, ?_, hreads⟩
      · simp only [hstrand, List.cons_append]
      · simpa using hrest

/-- A replay queues records that it has read, and no other replay. -/
theorem replay_queues_read {msgs : List DoWrite} (h : msgs.foldlM replayHandler r = .ok r') :
    ∀ t ∈ r'.strand, t ∈ r.strand ∨ ∃ m ∈ msgs, t
      = .update (logRecord m.key m.val m.timestamp) := by
  induction msgs generalizing r with
  | nil =>
    cases h
    exact fun t ht => Or.inl ht
  | cons m msgs ih =>
    rw [List.foldlM_cons] at h
    obtain ⟨r₁, hr₁, h⟩ := Coordinator.bind_ok h
    intro t ht
    rcases ih h t ht with hold | ⟨x, hx, rfl⟩
    · obtain ⟨-, ⟨-, rfl⟩ | ⟨-, rfl⟩⟩ := write_ok hr₁
      · exact Or.inl hold
      · rcases List.mem_append.mp hold with hmem | hnew
        · exact Or.inl hmem
        · exact Or.inr ⟨m, List.mem_cons_self, List.mem_singleton.mp hnew⟩
    · exact Or.inr ⟨x, List.mem_cons_of_mem m hx, rfl⟩

/-- After a task no replay is left: a replay comes first and only once. -/
theorem Replays.runTask (hr : r.Replays codec P) (h : r.runTask codec = some r') :
    LogTask.replay ∉ r'.strand := by
  obtain ⟨t, rest, hstrand, hperform⟩ := runTask_eq_some h
  cases t with
  | update m =>
    cases hperform
    rcases hr with hnone | ⟨rest', hstrand', -⟩
    · rw [hstrand] at hnone
      exact List.not_mem_of_not_mem_cons hnone
    · rw [hstrand] at hstrand'
      cases hstrand'
  | replay =>
    rcases hr with hnone | ⟨rest', hstrand', hrest', -⟩
    · rw [hstrand] at hnone
      exact absurd List.mem_cons_self hnone
    · rw [hstrand] at hstrand'
      cases hstrand'
      intro hmem
      rcases replay_queues_read hperform _ hmem with hold | ⟨m, -, heq⟩
      · exact hrest' hold
      · cases heq

/-- What a replay reads has the property. -/
theorem Replays.reads (hr : r.Replays codec P) {rest : List LogTask}
    (h : r.strand = .replay :: rest) :
    ∀ m ∈ Log.replay codec r.file, P m := by
  rcases hr with hnone | ⟨rest', -, -, hreads⟩
  · rw [h] at hnone
    exact absurd List.mem_cons_self hnone
  · exact hreads

/-- Every version in the store, in the queue and in a log that is still to be replayed is of `P`. -/
structure Stocked (codec : Codec DoWrite) (P : UInt32 → Element → Prop) (r : Replica) : Prop where
  store : ∀ k e, r.store k = some e → P k e
  queue : ∀ m, .update m ∈ r.strand → P m.key (storeRegister.entry m)
  replays : r.Replays codec fun m => P m.key (storeRegister.entry m)

variable {Q : UInt32 → Element → Prop}

theorem Stocked.mono (h : r.Stocked codec Q) {Q' : UInt32 → Element → Prop}
    (himp : ∀ k e, Q k e → Q' k e) : r.Stocked codec Q' where
  store k e he := himp k e (h.store k e he)
  queue m hm := himp _ _ (h.queue m hm)
  replays := h.replays.imp id fun ⟨rest, hstrand, hrest, hreads⟩ =>
    ⟨rest, hstrand, hrest, fun m hm => himp _ _ (hreads m hm)⟩

/-- A write adds a version, which must have the property. -/
theorem Stocked.write (h : r.Stocked codec Q) {k : UInt32} {data : String} {timestamp : Timestamp}
    (hwrite : r.write k data timestamp = .ok r') (hnew : Q k ⟨data, timestamp⟩) :
    r'.Stocked codec Q := by
  have hreplays := h.replays.write hwrite
  obtain ⟨-, ⟨-, rfl⟩ | ⟨-, rfl⟩⟩ := write_ok hwrite
  · exact h
  · refine ⟨h.store, fun m hm => ?_, hreplays⟩
    rcases List.mem_append.mp hm with hold | hnewTask
    · exact h.queue m hold
    · obtain rfl := LogTask.update.inj (List.mem_singleton.mp hnewTask)
      exact hnew

/-- A task of the log stores a version that was there. -/
theorem Stocked.runTask (h : r.Stocked codec Q) (htask : r.runTask codec = some r') :
    r'.Stocked codec Q := by
  have hreplays : r'.Replays codec fun m => Q m.key (storeRegister.entry m) :=
    Or.inl (h.replays.runTask htask)
  obtain ⟨t, rest, hstrand, hperform⟩ := runTask_eq_some htask
  -- An update stores an element that was queued; a replay queues what the file holds.
  cases t with
  | update m =>
    cases hperform
    refine ⟨fun k e he => ?_, fun x hx => ?_, hreplays⟩
    · simp only [updateTask] at he
      split at he
      · exact h.store k e he
      · by_cases hk : k = m.key
        · subst hk
          rw [Function.update_self] at he
          cases he
          exact h.queue m (hstrand ▸ List.mem_cons_self)
        · rw [Function.update_of_ne hk] at he
          exact h.store k e he
    · exact h.queue x (hstrand ▸ List.mem_cons_of_mem _ hx)
  | replay =>
    obtain ⟨hstore, -, -⟩ := replay_keeps hperform
    refine ⟨fun k e he => h.store k e (hstore ▸ he), fun x hx => ?_, hreplays⟩
    rcases replay_queues_read hperform _ hx with hold | ⟨m, hm, heq⟩
    · exact h.queue x (hstrand ▸ List.mem_cons_of_mem _ hold)
    · obtain rfl := LogTask.update.inj heq
      exact h.replays.reads hstrand m hm

/-- The log holds whole records, all of `P`. -/
def Recorded (codec : Codec DoWrite) (P : UInt32 → Element → Prop) (r : Replica) : Prop :=
  ∃ ms, r.file = Log.records codec ms ∧ ∀ m ∈ ms, P m.key (storeRegister.entry m)

/-- What is appended to the log has waited in the strand. -/
theorem Recorded.grows (h : r.Recorded codec Q)
    (hqueue : ∀ m, .update m ∈ r.strand → Q m.key (storeRegister.entry m))
    (hgrows : Grows codec r r') : r'.Recorded codec Q := by
  obtain ⟨ms, hms, hall⟩ := h
  cases hgrows with
  | same => exact ⟨ms, hms, hall⟩
  | write hwrite =>
    obtain ⟨-, ⟨-, rfl⟩ | ⟨-, rfl⟩⟩ := write_ok hwrite
    · exact ⟨ms, hms, hall⟩
    · exact ⟨ms, hms, hall⟩
  | task htask =>
    obtain ⟨t, rest, hstrand, hperform⟩ := runTask_eq_some htask
    cases t with
    | update m =>
      cases hperform
      refine ⟨ms ++ [m], updateTask_file ms hms m, fun x hx => ?_⟩
      rcases List.mem_append.mp hx with hold | hnew
      · exact hall x hold
      · obtain rfl := List.mem_singleton.mp hnew
        exact hqueue x (hstrand ▸ List.mem_cons_self)
    | replay => exact ⟨ms, (replay_keeps hperform).2.1.trans hms, hall⟩

/-- A weaker property of the records. -/
theorem Recorded.mono (h : r.Recorded codec Q) {Q' : UInt32 → Element → Prop}
    (himp : ∀ k e, Q k e → Q' k e) : r.Recorded codec Q' :=
  let ⟨ms, hms, hall⟩ := h
  ⟨ms, hms, fun m hm => himp _ _ (hall m hm)⟩

/-- **A version that nothing newer reaches stays.** -/
theorem Stocked.held {k : UInt32} {e : Element}
    (h : r.Stocked codec fun k' e' => k' = k → e'.timestamp ≤ e.timestamp)
    (hheld : r.store k = some e) (htask : r.runTask codec = some r') : r'.store k = some e := by
  obtain ⟨t, rest, hstrand, hperform⟩ := runTask_eq_some htask
  cases t with
  | update m =>
    cases hperform
    simp only [updateTask]
    split
    · exact hheld
    · next hnew =>
      by_cases hk : k = m.key
      · subst hk
        have hle := h.queue m (hstrand ▸ List.mem_cons_self) rfl
        refine absurd ?_ hnew
        simp only [stale, hheld, decide_eq_true_eq]
        exact hle
      · rw [Function.update_of_ne hk]
        exact hheld
  | replay =>
    rw [(replay_keeps hperform).1]
    exact hheld

/-- Without a newer version what is held stays. -/
theorem Stocked.held_grows {k : UInt32} {e : Element}
    (h : r.Stocked codec fun k' e' => k' = k → e'.timestamp ≤ e.timestamp)
    (hheld : r.store k = some e) (hgrows : Grows codec r r') : r'.store k = some e := by
  cases hgrows with
  | same => exact hheld
  | write hwrite =>
    obtain ⟨-, ⟨-, rfl⟩ | ⟨-, rfl⟩⟩ := write_ok hwrite
    · exact hheld
    · exact hheld
  | task htask => exact h.held hheld htask

end Replica

/-- The version that a message hands over. -/
def ServerMessage.carries : ServerMessage → Option (UInt32 × Element)
  | .doWrite msg => some (msg.key, ⟨msg.val, msg.timestamp⟩)
  | .readRepairResponse msg => some (msg.key, ⟨msg.val, msg.timestamp⟩)
  | _ => none

namespace Coordinator

/-- The version that an event hands to `Replica::write`. The response to a read repair is
written when there is no copy, or an older one. -/
def writes (c : Coordinator) : Event → Option (UInt32 × Element)
  | .client _ (.putKey msg) stamp _ => some (msg.key, ⟨msg.val, stamp⟩)
  | .server _ (.doWrite msg) => some (msg.key, ⟨msg.val, msg.timestamp⟩)
  | .server _ (.readRepairResponse msg) =>
    if (c.replica.store msg.key).all fun copy => copy.timestamp < msg.timestamp
      then some (msg.key, ⟨msg.val, msg.timestamp⟩) else none
  | _ => none

/-- Every version that the coordinator has is of `P`, those of the puts that are still to be sent
to the other servers included. -/
structure Stocked (codec : Codec DoWrite) (P : UInt32 → Element → Prop) (c : Coordinator) :
    Prop where
  replica : c.replica.Stocked codec P
  starts : ∀ msg requestor uuid stamp, .start msg requestor uuid stamp ∈ c.writeStrand →
    P msg.key ⟨msg.val, stamp⟩

variable {codecs : Codecs} {P : UInt32 → Element → Prop} {c c' : Coordinator} {ev : Event}
  {es : List Effect}

theorem Stocked.mono (h : c.Stocked codecs.replica P) {P' : UInt32 → Element → Prop}
    (himp : ∀ k e, P k e → P' k e) : c.Stocked codecs.replica P' where
  replica := h.replica.mono himp
  starts msg r u stamp hmem := himp _ _ (h.starts msg r u stamp hmem)

/-- A version that is newer than what is stored is written. -/
theorem writes_of_newer {source : Chan} {msg : ReadRepairResponse}
    (newer : ∀ copy ∈ c.replica.store msg.key, copy.timestamp < msg.timestamp) :
    c.writes (.server source (.readRepairResponse msg))
      = some (msg.key, ⟨msg.val, msg.timestamp⟩) := by
  apply if_pos
  cases hheld : c.replica.store msg.key with
  | none => rfl
  | some copy => exact decide_eq_true (newer copy hheld)

/-- What is written because of a message is what the message hands over. -/
theorem carries_of_writes {source : Chan} {msg : ServerMessage} {v : UInt32 × Element}
    (h : v ∈ c.writes (.server source msg)) : v ∈ msg.carries := by
  cases msg with
  | doWrite msg => exact h
  | readRepairResponse msg =>
    simp only [writes, Option.mem_def] at h
    split at h
    · exact h
    · cases h
  | _ => cases h

/-- **An event keeps the property** of all versions, when what it writes has it. -/
theorem Stocked.handle (h : c.Stocked codecs.replica P)
    (hhandle : c.handle codecs ev = some (c', es))
    (hwrites : ∀ v ∈ c.writes ev, P v.1 v.2) : c'.Stocked codecs.replica P := by
  -- The events that write hand over a version; those that start a write only queue one.
  cases acts_of_handle hhandle with
  | @put requestor msg stamp uuid replica write =>
    have hnew := hwrites _ rfl
    refine ⟨h.replica.write write hnew, fun m r u s hmem => ?_⟩
    rcases List.mem_append.mp hmem with hold | hstart
    · exact h.starts m r u s hold
    · cases List.mem_singleton.mp hstart
      exact hnew
  | doWrite sender write => exact ⟨h.replica.write write (hwrites _ rfl), h.starts⟩
  | repairNewer sender newer write =>
    exact ⟨h.replica.write write (hwrites _ (writes_of_newer newer)), h.starts⟩
  | runLog task => exact ⟨h.replica.runTask task, h.starts⟩
  | writeComplete sender =>
    refine ⟨h.replica, fun m r u s hmem => ?_⟩
    rcases List.mem_append.mp hmem with hold | hnew
    · exact h.starts m r u s hold
    · cases List.mem_singleton.mp hnew
  | startWrite head =>
    exact ⟨h.replica, fun m r u s hmem => h.starts m r u s (head ▸ List.mem_cons_of_mem _ hmem)⟩
  | completeWrite head found =>
    exact ⟨h.replica, fun m r u s hmem => h.starts m r u s (head ▸ List.mem_cons_of_mem _ hmem)⟩
  | _ => exact ⟨h.replica, h.starts⟩

/-- A broadcast sends one message. -/
theorem carries_broadcast {msg : ServerMessage} {ch : Chan} {m : ServerMessage}
    (h : .send ch m ∈ c.broadcast msg) : m = msg := by
  obtain ⟨i, -, heq⟩ := List.mem_map.mp h
  cases heq
  rfl

/-- **What an event sends** has the property of the versions that the coordinator has and writes;
only the response of a coordinator without a copy need not. -/
theorem given_of_handle (h : c.Stocked codecs.replica P)
    (hhandle : c.handle codecs ev = some (c', es)) (hwrites : ∀ v ∈ c.writes ev, P v.1 v.2)
    {ch : Chan} {m : ServerMessage} (hsend : .send ch m ∈ es) {v : UInt32 × Element}
    (hv : v ∈ m.carries) :
    P v.1 v.2 ∨ c.replica.store v.1 = none ∧ v.2 = missing ∧
      m = .readRepairResponse ⟨v.1, Timestamp.zero, ""⟩ := by
  have hcopy : ∀ {k}, P k (c.copyOf k) ∨ c.replica.store k = none ∧ c.copyOf k = missing := by
    intro k
    unfold copyOf
    cases hheld : c.replica.store k with
    | none => exact Or.inr ⟨rfl, rfl⟩
    | some e => exact Or.inl (h.replica.store k e hheld)
  cases acts_of_handle hhandle with
  | @readRepair source msg id sender key =>
    cases List.mem_singleton.mp hsend
    obtain rfl := Option.some.inj hv
    rcases hcopy (k := msg.key) with hheld | ⟨hnone, hmissing⟩
    · exact Or.inl hheld
    · -- a key that is not in the store is answered with the oldest timestamp
      refine Or.inr ⟨hnone, hmissing, ?_⟩
      rw [hmissing]
      rfl
  | @repairOlder source msg id copy sender key held =>
    cases List.mem_singleton.mp hsend
    obtain rfl := Option.some.inj hv
    exact Or.inl (h.replica.store _ _ held)
  | @repairNewer source msg id replica sender newer write =>
    cases carries_broadcast hsend
    obtain rfl := Option.some.inj hv
    exact Or.inl (hwrites _ (writes_of_newer newer))
  | @startWrite msg requestor uuid stamp rest head =>
    rcases List.mem_append.mp hsend with hreply | hsend
    · split at hreply
      · cases List.mem_singleton.mp hreply
      · cases hreply
    · cases carries_broadcast hsend
      obtain rfl := Option.some.inj hv
      exact Or.inl (h.starts _ _ _ _ (head ▸ List.mem_cons_self))
  | @reconnected n i task bound =>
    rcases List.mem_cons.mp hsend with hintro | hsend
    · cases hintro
      cases hv
    · -- a reconnected replica gets the copies that it missed
      unfold handoff at hsend
      split at hsend
      · obtain ⟨k, -, heq⟩ := List.mem_filterMap.mp hsend
        split at heq
        · cases heq
        · obtain ⟨e, he, heq⟩ := Option.map_eq_some_iff.mp heq
          cases heq
          obtain rfl := Option.some.inj hv
          exact Or.inl (h.replica.store _ _ he)
      · cases hsend
  | doWrite =>
    split at hsend
    · cases hsend
    · cases List.mem_singleton.mp hsend
      cases hv
  | doRead =>
    cases List.mem_singleton.mp hsend
    cases hv
  | startRead | repair =>
    cases carries_broadcast hsend
    cases hv
  | completeWrite =>
    split at hsend
    · cases List.mem_singleton.mp hsend
    · cases hsend
  | getOwn | badRequest | badMessage | answerRead => cases List.mem_singleton.mp hsend
  | _ => cases hsend

end Coordinator

end Cs457.Kv
