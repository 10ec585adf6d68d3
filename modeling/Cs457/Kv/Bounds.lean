import Cs457.Kv.Faults
import Cs457.Lib.Transition
import Cs457.Kv.Recovery
import Cs457.Kv.HintCodec

/-!
# Key-value store — the bounds of the arrays

`m_store` has 256 elements, `m_hints` three arrays of 256 counters and `m_channels` one channel
for each replica. Keys come from clients, from other servers and from the two logs, and nothing
checks them; the numbers of replicas come from the configuration and from the hint log, and
nothing compares them with the three arrays.

* **`Fits`** — the events whose keys and numbers fit.
* **`inBounds_iff`** — one event: the server indexes within its arrays exactly when they fit.
* **`in_bounds_iff`** — the run.
-/

namespace Cs457.Kv

open Transition

/-- A fold that stops at the first element without the property. -/
theorem foldlM_ne_error {σ α : Type} {f : σ → α → Except Fault σ} {p : α → Prop} {e : Fault}
    (hok : ∀ s a, p a → ∃ s', f s a = .ok s') (hbad : ∀ s a, ¬ p a → f s a = .error e)
    (s : σ) (as : List α) : as.foldlM f s ≠ .error e ↔ ∀ a ∈ as, p a := by
  induction as generalizing s with
  | nil => simp [pure, Except.pure]
  | cons a as ih =>
    rw [List.foldlM_cons, List.forall_mem_cons]
    by_cases ha : p a
    · obtain ⟨s', hs'⟩ := hok s a ha
      rw [hs']
      exact (ih s').trans (and_iff_right ha).symm
    · rw [hbad s a ha]
      simp only [ha, false_and, iff_false, not_not]
      rfl

/-- The key that a message makes a server look up or write. -/
def ServerMessage.storeKey : ServerMessage → Option UInt32
  | .doWrite msg => some msg.key
  | .doRead msg => some msg.key
  | .readRepair msg => some msg.key
  | .readRepairResponse msg => some msg.key
  | _ => none

namespace Coordinator

/-- The event indexes no array out of bounds. -/
def InBounds (codecs : Codecs) (c : Coordinator) (ev : Event) : Prop :=
  c.outcome codecs ev ≠ some (.error .outOfBounds)

/-- **The keys and the numbers of an event fit**: the key of a request or of a message that is
handled is below 256, and so are those of the logs when they are replayed; the replica of a hint
is one of the first three, and so is a replica that is connected to in hinted-handoff mode. -/
def Fits (codecs : Codecs) (c : Coordinator) : Event → Prop
  | .client _ (.getKey msg) _ _ => msg.key < 256
  | .client _ (.putKey msg) _ _ => msg.key < 256
  | .server source msg => ∀ _ ∈ c.idOf source, ∀ key ∈ msg.storeKey, key < 256
  | .runLog => c.replica.strand.head? = some .replay →
    ∀ m ∈ Log.replay codecs.replica c.replica.file, m.key < 256
  | .runHint => match c.hintStrand.head? with
    | some (.update _ replica _ _) => replica < hintsSize
    | some .replay => ∀ m ∈ Log.replay codecs.hints c.hintFile, m.Counted
    | none => True
  | .runPosted n => match c.posted[n]? with
    | some (.reconnected i) => c.config.mode = .hintedHandoff → i < hintsSize
    | _ => True
  | _ => True

variable {codecs : Codecs} {c : Coordinator}

/-- A computation of two parts, of which the first fails exactly when `p` is false. -/
theorem bind_ne_error {α β : Type} {x : Except Fault α} {f : α → Except Fault β} {e : Fault}
    {p : Prop} (hok : p → ∃ a, x = .ok a ∧ f a ≠ .error e) (hbad : ¬ p → x = .error e) :
    (x >>= f) ≠ .error e ↔ p := by
  by_cases hp : p
  · obtain ⟨a, rfl, hf⟩ := hok hp
    exact iff_of_true hf hp
  · rw [hbad hp]
    exact iff_of_false (fun h => h rfl) hp

/-- Everything that a handler does with a key begins with a look at the store. -/
theorem read_bind {β : Type} {r : Replica} {key : UInt32} {f : Option Element → Except Fault β}
    (hf : key < 256 → f (r.store key) ≠ .error .outOfBounds) :
    (r.read key >>= f) ≠ .error .outOfBounds ↔ key < 256 :=
  bind_ne_error (fun hkey => ⟨_, if_pos hkey, hf hkey⟩) fun hkey => if_neg hkey

/-- A write to a key of 256 or more is out of bounds. -/
theorem write_bad {r : Replica} {key : UInt32} (h : ¬ key < 256) (data : String)
    (timestamp : Timestamp) : r.write key data timestamp = .error .outOfBounds := by
  unfold Replica.write Replica.read
  rw [if_neg h]
  rfl

/-- What comes after a write indexes nothing, so the key decides. -/
theorem write_bind {β : Type} {r : Replica} {key : UInt32} {data : String} {timestamp : Timestamp}
    {f : Replica → Except Fault β} (hf : ∀ r', f r' ≠ .error .outOfBounds) :
    (r.write key data timestamp >>= f) ≠ .error .outOfBounds ↔ key < 256 := by
  refine bind_ne_error (fun hkey => ?_) fun hkey => write_bad hkey data timestamp
  obtain ⟨r', hr'⟩ := Replica.write_of_lt hkey data timestamp
  exact ⟨r', hr', hf r'⟩

/-- `handle_get` looks the key up. -/
theorem handleGet_inBounds (msg : GetKey) (requestor : Client) :
    c.handleGet msg requestor ≠ .error .outOfBounds ↔ msg.key < 256 := by
  apply read_bind
  intro _
  simp only
  split <;> exact fun h => (by cases h)

/-- `handle_read_repair_response` looks it up and may write it. -/
theorem handleReadRepairResponse_inBounds (msg : ReadRepairResponse) (source : Chan) :
    c.handleReadRepairResponse msg source ≠ .error .outOfBounds ↔ msg.key < 256 := by
  apply read_bind
  intro hkey
  obtain ⟨r', hr'⟩ := Replica.write_of_lt (r := c.replica) hkey msg.val msg.timestamp
  cases c.replica.store msg.key with
  | none =>
    simp only [hr']
    exact fun h => (by cases h)
  | some copy =>
    simp only [hr']
    split
    · exact fun h => (by cases h)
    · split <;> exact fun h => (by cases h)

/-- `handle_do_write` writes it. -/
theorem handleDoWrite_inBounds (msg : DoWrite) {sender : ℕ}
    (hsender : sender < c.config.replicas.length) :
    c.handleDoWrite msg sender ≠ .error .outOfBounds ↔ msg.key < 256 := by
  apply write_bind
  intro r'
  simp only [if_pos hsender]
  split <;> exact fun h => (by cases h)

/-- A message of a server whose number is known. -/
theorem serverMsgHandler_inBounds (msg : ServerMessage) (source : Chan) {id : ℕ}
    (hid : id < c.config.replicas.length) :
    c.serverMsgHandler msg source id ≠ .error .outOfBounds ↔ ∀ key ∈ msg.storeKey, key < 256 := by
  have hnone : ∀ {x : Except Fault (Coordinator × List Effect)}, x ≠ .error .outOfBounds →
      (x ≠ .error .outOfBounds ↔ ∀ key ∈ (none : Option UInt32), key < 256) := fun hx =>
    iff_of_true hx fun _ h => (by cases h)
  have hsome : ∀ {k : UInt32}, (∀ key ∈ some k, key < 256) ↔ k < 256 := by
    intro k
    simp only [Option.mem_some_iff, forall_eq']
  cases msg with
  | doWrite msg => exact (handleDoWrite_inBounds msg hid).trans hsome.symm
  | doRead msg => exact (read_bind fun _ h => (by cases h)).trans hsome.symm
  | readRepair msg => exact (read_bind fun _ h => (by cases h)).trans hsome.symm
  | readRepairResponse msg => exact (handleReadRepairResponse_inBounds msg source).trans hsome.symm
  | _ => exact hnone fun h => (by cases h)

/-- A message of another server is handled only once that server is known. -/
theorem channelHandler_inBounds (h : c.Bounded) {source : Chan} {msg : ServerMessage}
    (hexists : c.channelExists (.server source msg) = true) :
    c.channelHandler msg source ≠ .error .outOfBounds ↔
      ∀ _ ∈ c.idOf source, ∀ key ∈ msg.storeKey, key < 256 := by
  cases source with
  | outgoing i =>
    have hi : i < c.config.replicas.length := of_decide_eq_true hexists
    refine (serverMsgHandler_inBounds msg (.outgoing i) hi).trans ?_
    simp only [idOf, Option.mem_some_iff, forall_eq']
  | accepted k =>
    simp only [channelHandler, idOf]
    cases hid : c.introduced k with
    | none =>
      -- a server that is not known is refused, whatever it sends
      refine iff_of_true ?_ fun _ hmem => (by cases hmem)
      simp only [unintroducedMsgHandler]
      split
      · split <;> exact fun h => (by cases h)
      · exact fun h => (by cases h)
    | some id =>
      refine (serverMsgHandler_inBounds msg (.accepted k) (h.introduced hid)).trans ?_
      simp only [Option.mem_some_iff, forall_eq']

/-- Both indices of `m_hints` must fit. -/
theorem addHints_inBounds (replica : ℕ) (key : UInt32) (change : ℤ) :
    c.addHints replica key change ≠ .error .outOfBounds ↔ replica < hintsSize ∧ key < 256 := by
  unfold addHints
  split
  · next hin => exact iff_of_true (fun h => (by cases h)) hin
  · next hout => exact iff_of_false (fun h => h rfl) hout

/-- A replay of the hint log counts every record. -/
theorem replayHints_inBounds (msgs : List HintMessage) :
    msgs.foldlM replayHint c ≠ .error .outOfBounds ↔ ∀ m ∈ msgs, m.Counted := by
  apply foldlM_ne_error
  · exact fun c m hm => replayHint_of_counted hm c
  · intro c m hm
    cases m with
    | addHint replica key => exact if_neg hm
    | dropHint replica key => exact if_neg hm
    | notSet => exact absurd trivial hm

/-- A replay of the log writes every record. -/
theorem replayLog_inBounds (r : Replica) (msgs : List DoWrite) :
    msgs.foldlM Replica.replayHandler r ≠ .error .outOfBounds ↔ ∀ m ∈ msgs, m.key < 256 := by
  apply foldlM_ne_error
  · exact fun r m hm => Replica.write_of_lt hm m.val m.timestamp
  · exact fun r m hm => write_bad hm m.val m.timestamp

theorem map_ne_error {α β : Type} {x : Except Fault α} {f : α → β} {e : Fault} :
    x.map f ≠ .error e ↔ x ≠ .error e := by
  cases x with
  | ok a => exact iff_of_true (fun h => (by cases h)) fun h => (by cases h)
  | error e' => simp only [Except.map, ne_eq, Except.error.injEq]

/-- The key of an update has been checked when it was posted; its replica is checked here. -/
theorem performHint_inBounds (h : c.Bounded) {t : HintTask} {rest : List HintTask}
    (hstrand : c.hintStrand = t :: rest) :
    ({ c with hintStrand := rest } : Coordinator).performHint codecs.hints t
        ≠ .error .outOfBounds ↔ c.Fits codecs .runHint := by
  simp only [Fits, hstrand]
  cases t with
  | update m replica key change =>
    have hkey := h.hints (hstrand ▸ List.mem_cons_self)
    exact (addHints_inBounds replica key change).trans (and_iff_left hkey)
  | replay => exact replayHints_inBounds _

/-- An update of the log was written to the store before. -/
theorem performLog_inBounds {t : LogTask} {rest : List LogTask}
    (hstrand : c.replica.strand = t :: rest) :
    ({ c.replica with strand := rest } : Replica).perform codecs.replica t
        ≠ .error .outOfBounds ↔ c.Fits codecs .runLog := by
  simp only [Fits, hstrand]
  cases t with
  | update m => exact iff_of_true (fun h => (by cases h)) fun h => (by cases h)
  | replay =>
    refine (replayLog_inBounds _ _).trans ?_
    simp only [List.head?_cons, forall_const]

/-- No array is indexed for a write: its table is a map. -/
theorem performWrite_inBounds (t : WriteTask) : c.performWrite t ≠ .error .outOfBounds := by
  cases t with
  | start msg requestor uuid stamp => exact fun h => (by cases h)
  | complete msg sender =>
    simp only [performWrite, completeWrite]
    split <;> exact fun h => (by cases h)

/-- `front()` is taken of the results of a read, of which there is at least one. -/
theorem performRead_inBounds
    (hresults : ∀ {u p}, c.pendingReads.lookup u = some p → p.results ≠ []) (uuid : String)
    (t : ReadTask) : c.performRead uuid t ≠ .error .outOfBounds := by
  cases t with
  | start msg requestor own => exact fun h => (by cases h)
  | complete msg =>
    simp only [performRead, completeRead]
    split
    · exact fun h => (by cases h)
    · next pending hfound =>
      split
      · obtain ⟨x, xs, hx⟩ := List.exists_cons_of_ne_nil (hresults hfound)
        rw [hx]
        exact fun h => (by cases h)
      · exact fun h => (by cases h)

/-- Only in hinted-handoff mode are the counters of a replica read when it is connected to. -/
theorem performIo_inBounds (t : IoTask) : c.performIo t ≠ .error .outOfBounds ↔
    ∀ i, t = .reconnected i → c.config.mode = .hintedHandoff → i < hintsSize := by
  cases t with
  | readRepair key => exact iff_of_true (fun h => (by cases h)) fun i h => (by cases h)
  | reconnected i =>
    simp only [performIo, reconHandler, IoTask.reconnected.injEq, forall_eq']
    split
    · next hmode =>
      split
      · next hi => exact iff_of_true (fun h => (by cases h)) fun _ => hi
      · next hi => exact iff_of_false (fun h => h rfl) fun hall => hi (hall hmode)
    · next hmode => exact iff_of_true (fun h => (by cases h)) fun hm => absurd hm hmode

/-- **One event.** The server indexes within its arrays exactly when the keys and numbers fit.
One case for each kind of event: a strand that is empty runs nothing. -/
theorem Bounded.inBounds_iff (h : c.Bounded) {ev : Event} (hexists : c.channelExists ev = true) :
    c.InBounds codecs ev ↔ c.Fits codecs ev := by
  have hnone : ∀ {p : Prop}, p → ((none : Option (Except Fault (Coordinator × List Effect))) ≠
      some (.error .outOfBounds) ↔ p) := fun hp => iff_of_true (fun h => (by cases h)) hp
  have hsome : ∀ {x : Except Fault (Coordinator × List Effect)},
      some x ≠ some (.error .outOfBounds) ↔ x ≠ .error .outOfBounds := by
    intro x
    rw [ne_eq, Option.some.injEq]
  unfold InBounds
  cases ev with
  | client requestor msg stamp uuid =>
    refine hsome.trans ?_
    cases msg with
    | getKey msg => exact handleGet_inBounds msg requestor
    | putKey msg => exact write_bind fun r' h => (by cases h)
    | _ => exact iff_of_true (fun h => (by cases h)) trivial
  | server source msg => exact hsome.trans (channelHandler_inBounds h hexists)
  | connected i => exact iff_of_true (fun h => (by cases h)) trivial
  | runLog =>
    simp only [outcome]
    split
    · next hstrand => exact hnone fun hhead => by rw [hstrand] at hhead; cases hhead
    · next t rest hstrand => exact (hsome.trans map_ne_error).trans (performLog_inBounds hstrand)
  | runHint =>
    simp only [outcome]
    split
    · next hstrand => exact hnone (by simp only [Fits, hstrand, List.head?_nil])
    · next t rest hstrand =>
      exact (hsome.trans map_ne_error).trans (performHint_inBounds h hstrand)
  | runWrite =>
    refine iff_of_true ?_ trivial
    simp only [outcome]
    split
    · exact fun h => (by cases h)
    · exact hsome.mpr (performWrite_inBounds _)
  | runRead uuid =>
    refine iff_of_true ?_ trivial
    simp only [outcome]
    split
    · exact fun h => (by cases h)
    · refine hsome.mpr (performRead_inBounds ?_ uuid _)
      exact fun hp => h.results hp
  | runPosted n =>
    simp only [outcome, Fits]
    cases hposted : c.posted[n]? with
    | none => exact hnone trivial
    | some t =>
      refine (hsome.trans (performIo_inBounds t)).trans ?_
      cases t with
      | readRepair key => exact iff_of_true (fun i h => (by cases h)) trivial
      | reconnected i => simp only [IoTask.reconnected.injEq, forall_eq']

/-- **The run.** In any environment and from any logs, a server never indexes out of bounds
exactly when the keys and numbers of all events of the run fit. -/
theorem in_bounds_iff (codecs : Codecs) (config : Config) (file hintFile : List UInt8)
    {evs : List Event} (hexists : Along (step codecs) (fun c ev => c.channelExists ev = true)
      (create config file hintFile) evs) :
    Along (step codecs) (InBounds codecs) (create config file hintFile) evs ↔
      Along (step codecs) (Fits codecs) (create config file hintFile) evs := by
  apply along_congr (P := Bounded) ?_ ?_ (bounded_create config file hintFile) hexists
  · intro c ev c' hc hstep
    obtain ⟨⟨c', es⟩, hhandle, rfl⟩ := Option.map_eq_some_iff.mp hstep
    exact hc.handle hhandle
  · exact fun c ev hc hex => hc.inBounds_iff hex

/-! ## A key and a number that do not fit -/

/-- A server with four replicas. -/
def fourReplicas : Config := ⟨"127.0.0.1", 9001,
  [("127.0.0.1", "9002"), ("127.0.0.1", "9003"), ("127.0.0.1", "9004"), ("127.0.0.1", "9005")],
  .hintedHandoff⟩

noncomputable def fourCodecs : Codecs := ⟨firstCodec, hintProto⟩

def getOf (key : UInt32) : Event := .client 0 (.getKey ⟨7, key, 1⟩) ⟨100, 0⟩ "u"

/-- A get of the last key. -/
theorem in_bounds_iff_get :
    Along (step fourCodecs) (InBounds fourCodecs) (create fourReplicas [] []) [getOf 255] := by
  have hexists : Along (step fourCodecs) (fun c ev => c.channelExists ev = true)
      (create fourReplicas [] []) [getOf 255] := ⟨rfl, fun _ _ => trivial⟩
  refine (in_bounds_iff fourCodecs fourReplicas [] [] hexists).mpr ⟨?_, fun _ _ => trivial⟩
  show (255 : UInt32) < 256
  decide

/-- **A get of the key 256** reads behind the store, and the connect of the fourth replica behind
the counters. -/
theorem out_of_bounds : ¬ InBounds fourCodecs (create fourReplicas [] []) (getOf 256) ∧
    ¬ Along (step fourCodecs) (InBounds fourCodecs) (create fourReplicas [] [])
      [.connected 3, .runPosted 0] := by
  refine ⟨fun h => h rfl, fun h => ?_⟩
  exact (h.2 _ rfl).1 rfl

end Coordinator

end Cs457.Kv
