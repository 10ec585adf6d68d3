import Cs457.Kv.Events

/-!
# Key-value store — what stops a server

An event that faults has no successor: an exception leaves `io_service::run`, and an access out
of bounds is undefined. `outcome` is `handle` with the fault.

* **`handle_eq_outcome`** — an event without a fault is handled.
* **`Bounded.handle`** — the invariant that keeps the indices of a server's own making small.
-/

namespace Cs457.Kv

namespace Coordinator

/-- What an event does, or the fault. There is no outcome when there is nothing to run. -/
def outcome (codecs : Codecs) (c : Coordinator) :
    Event → Option (Except Fault (Coordinator × List Effect))
  | .client requestor msg stamp uuid => some (c.clientHandler msg requestor stamp uuid)
  | .server source msg => some (c.channelHandler msg source)
  | .connected i => some (.ok ({ c with posted := c.posted ++ [.reconnected i] }, []))
  | .runLog => match c.replica.strand with
    | [] => none
    | t :: rest =>
      some ((({ c.replica with strand := rest } : Replica).perform codecs.replica t).map
        fun r => ({ c with replica := r }, []))
  | .runHint => match c.hintStrand with
    | [] => none
    | t :: rest => some (({ c with hintStrand := rest }.performHint codecs.hints t).map
        fun c => (c, []))
  | .runWrite => match c.writeStrand with
    | [] => none
    | t :: rest => some ({ c with writeStrand := rest }.performWrite t)
  | .runRead uuid => match c.readStrand with
    | [] => none
    | t :: rest => some ({ c with readStrand := rest }.performRead uuid t)
  | .runPosted n => match c.posted[n]? with
    | none => none
    | some t => some ({ c with posted := c.posted.eraseIdx n }.performIo t)

/-- The fault of an event. -/
def fault (codecs : Codecs) (c : Coordinator) (ev : Event) : Option Fault :=
  match c.outcome codecs ev with
  | some (.error f) => some f
  | _ => none

theorem toOption_map {α β : Type} (x : Except Fault α) (f : α → β) :
    (x.map f).toOption = x.toOption.map f := by
  cases x <;> rfl

/-- **`handle` forgets the fault.** -/
theorem handle_eq_outcome (codecs : Codecs) (c : Coordinator) (ev : Event) :
    c.handle codecs ev = (c.outcome codecs ev).bind Except.toOption := by
  cases ev with
  | client requestor msg stamp uuid => rfl
  | server source msg => rfl
  | connected i => rfl
  | runLog =>
    unfold handle outcome Replica.runTask
    cases c.replica.strand with
    | nil => rfl
    | cons t rest => exact (toOption_map _ _).symm
  | runHint =>
    unfold handle outcome
    cases c.hintStrand with
    | nil => rfl
    | cons t rest => exact (toOption_map _ _).symm
  | runWrite =>
    unfold handle outcome
    cases c.writeStrand <;> rfl
  | runRead uuid =>
    unfold handle outcome
    cases c.readStrand <;> rfl
  | runPosted n =>
    simp only [handle, outcome]
    cases c.posted[n]? <;> rfl

/-- **The invariant of the indices.** What a server keeps to index with is below 256, the number
of an introduced server is that of a replica, and no pending read is without a result. -/
structure Bounded (c : Coordinator) : Prop where
  introduced : ∀ {k id}, c.introduced k = some id → id < c.config.replicas.length
  starts : ∀ {msg r u s}, .start msg r u s ∈ c.writeStrand → msg.key < 256
  writes : ∀ {u p}, c.pendingWrites.lookup u = some p → p.key < 256
  hints : ∀ {msg i key n}, .update msg i key n ∈ c.hintStrand → key < 256
  results : ∀ {u p}, c.pendingReads.lookup u = some p → p.results ≠ []

/-- A process starts with nothing to index but its logs. -/
theorem bounded_create (config : Config) (file hintFile : List UInt8) :
    (create config file hintFile).Bounded where
  introduced h := nomatch h
  starts h := nomatch h
  writes h := nomatch h
  hints h := by
    unfold create at h
    simp only at h
    split at h
    · cases List.mem_singleton.mp h
    · cases h
  results h := nomatch h

variable {codecs : Codecs} {c c' : Coordinator} {ev : Event} {es : List Effect}

/-- **An event keeps the indices small.** -/
theorem Bounded.handle (h : c.Bounded) (hhandle : c.handle codecs ev = some (c', es)) :
    c'.Bounded := by
  cases acts_of_handle hhandle with
  | @put requestor msg stamp uuid replica write =>
    -- a put that throws posts nothing, so its key is in range
    have hkey := (Replica.write_ok write).1
    refine ⟨h.introduced, fun hmem => ?_, h.writes, fun hmem => ?_, h.results⟩
    · rcases List.mem_append.mp hmem with hold | hnew
      · exact h.starts hold
      · cases List.mem_singleton.mp hnew
        exact hkey
    · rcases List.mem_append.mp hmem with hold | hnew
      · exact h.hints hold
      · unfold hintAdds at hnew
        split at hnew
        · obtain ⟨i, -, heq⟩ := List.mem_map.mp hnew
          cases heq
          exact hkey
        · cases hnew
  | @introduce k intro id unknown found =>
    refine ⟨fun {j i} hid => ?_, h.starts, h.writes, h.hints, h.results⟩
    replace hid : Function.update c.introduced k (some id) j = some i := hid
    by_cases hj : j = k
    · subst hj
      rw [Function.update_self] at hid
      cases hid
      -- the number is the position of an address in the list of replicas
      exact (List.findIdx?_eq_some_iff_getElem.mp found).1
    · rw [Function.update_of_ne hj] at hid
      exact h.introduced hid
  | writeComplete sender =>
    refine ⟨h.introduced, fun hmem => ?_, h.writes, h.hints, h.results⟩
    rcases List.mem_append.mp hmem with hold | hnew
    · exact h.starts hold
    · cases List.mem_singleton.mp hnew
  | @runHint t rest hints hintFile head perform =>
    exact ⟨h.introduced, h.starts, h.writes,
      fun hmem => h.hints (head ▸ List.mem_cons_of_mem _ hmem), h.results⟩
  | @startWrite msg requestor uuid stamp rest head =>
    have hkey := h.starts (head ▸ List.mem_cons_self)
    refine ⟨h.introduced, fun hmem => h.starts (head ▸ List.mem_cons_of_mem _ hmem),
      fun {u p} hp => ?_, h.hints, h.results⟩
    rcases UnorderedMap.of_lookup_emplace hp with ⟨-, rfl⟩ | hold
    · exact hkey
    · exact h.writes hold
  | @completeWrite msg sender rest pending head found =>
    have hkey := h.writes found
    refine ⟨h.introduced, fun hmem => h.starts (head ▸ List.mem_cons_of_mem _ hmem),
      fun {u p} hp => ?_, fun hmem => ?_, h.results⟩
    · rcases UnorderedMap.of_lookup_insert hp with ⟨-, rfl⟩ | ⟨-, hold⟩
      · exact hkey
      · exact h.writes hold
    · rcases List.mem_append.mp hmem with hold | hnew
      · exact h.hints hold
      · unfold hintDrops at hnew
        split at hnew
        · cases List.mem_singleton.mp hnew
          exact hkey
        · cases hnew
  | startRead head =>
    refine ⟨h.introduced, h.starts, h.writes, h.hints, fun hp => ?_⟩
    rcases UnorderedMap.of_lookup_emplace hp with ⟨-, rfl⟩ | hold
    · -- the entry starts with the server's own copy
      exact List.cons_ne_nil _ _
    · exact h.results hold
  | completeRead head found | answerRead head found =>
    refine ⟨h.introduced, h.starts, h.writes, h.hints, fun hp => ?_⟩
    have hold := h.results found
    rcases UnorderedMap.of_lookup_insert hp with ⟨-, rfl⟩ | ⟨-, hother⟩
    · exact hold
    · exact h.results hother
  | _ => exact ⟨h.introduced, h.starts, h.writes, h.hints, h.results⟩

end Coordinator

end Cs457.Kv
