import Cs457.Kv.Versions
import Cs457.Kv.Cluster
import Cs457.Kv.Recovery
import Cs457.Kv.HintCodec

/-!
# Key-value store — only what was put is stored

In a cluster the versions of a key go from server to server with DoWrites and with the
responses to read repairs. A response says that there is no copy with the empty value at the
time zero, like a version; a server that has no copy either writes it.

* **`Sourced.step`** — the invariant: every version that is stored, logged or on the way was
  assigned by a put, but for responses of servers without a copy.
* **`only_puts_stored`** — when no such response is written, only what was put is stored.
* **`missing_stored`** — a get of a key that nobody has put stores and logs an element.
-/

namespace Cs457.Kv

open Transition

namespace Cluster

variable {ι : Type}

/-- The version has been assigned to the key by a put, before the start or since. -/
def Assigned (old : ι → List DoWrite) (c : Cluster ι) (k : UInt32) (e : Element) : Prop :=
  (∃ put ∈ c.puts, put.msg.key = k ∧ e = ⟨put.msg.val, put.stamp⟩) ∨
    ∃ x, ∃ m ∈ old x, m.key = k ∧ e = ⟨m.val, m.timestamp⟩

/-- The version that a step writes because it is the response to a read repair. -/
def repaired (c : Cluster ι) (a : Action ι) : Option (UInt32 × Element) :=
  match c.event a with
  | some (x, .server source (.readRepairResponse msg)) =>
    (c.node x).writes (.server source (.readRepairResponse msg))
  | _ => none

/-- What stands for a missing copy is not written as if it were one. -/
def Genuine (old : ι → List DoWrite) (c : Cluster ι) (a : Action ι) : Prop :=
  ∀ k, c.repaired a = some (k, Coordinator.missing) → Assigned old c k Coordinator.missing

/-- **The invariant of the versions.** -/
structure Sourced (codec : Codec DoWrite) (old : ι → List DoWrite) (c : Cluster ι) : Prop where
  stocked : ∀ x, (c.node x).Stocked codec (Assigned old c)
  recorded : ∀ x, (c.node x).replica.Recorded codec (Assigned old c)
  carried : ∀ p ∈ c.net, ∀ v ∈ p.msg.carries, Assigned old c v.1 v.2 ∨
    v.2 = Coordinator.missing ∧ ∃ msg, p.msg = .readRepairResponse msg

variable {codecs : Coordinator.Codecs} {old : ι → List DoWrite} {c c' : Cluster ι}

/-- What has been assigned stays so while puts are added. -/
theorem Assigned.mono {k : UInt32} {e : Element} (h : Assigned old c k e)
    (hsub : c.puts ⊆ c'.puts) : Assigned old c' k e :=
  h.imp_left fun ⟨put, hput, heq⟩ => ⟨put, hsub hput, heq⟩

/-- At the start the stores are empty and the logs hold what they held. -/
theorem sourced_start (D : Deployment ι) {codec : Codec DoWrite}
    (hold : ∀ x, ∀ m ∈ old x, codec.Fits m) (hintFile : ι → List UInt8) :
    Sourced codec old (start D codec old hintFile) := by
  have hassigned : ∀ x, ∀ m ∈ old x,
      Assigned old (start D codec old hintFile) m.key (storeRegister.entry m) := fun x m hm =>
    Or.inr ⟨x, m, hm, rfl, rfl⟩
  refine ⟨fun x => ⟨⟨fun k e he => (by cases he), fun m hm => ?_, ?_⟩, fun _ _ _ _ hmem => ?_⟩,
    fun x => ⟨old x, rfl, hassigned x⟩, fun p hp => ?_⟩
  · cases List.mem_singleton.mp hm
  · refine Or.inr ⟨[], rfl, List.not_mem_nil, fun m hm => hassigned x m ?_⟩
    rwa [show (start D codec old hintFile |>.node x).replica.file = Log.records codec (old x)
      from rfl, Log.replay_records (hold x)] at hm
  · cases hmem
  · cases hp

/-- What a server writes has been put, or is the response of a server without a copy. -/
theorem Sourced.assigned (h : Sourced codecs.replica old c) {a : Action ι} {x : ι}
    {ev : Coordinator.Event} (hev : c.event a = some (x, ev)) (hgenuine : Genuine old c a)
    (hputs : c'.puts = c.puts ++ putsOf a) :
    ∀ v ∈ (c.node x).writes ev, Assigned old c' v.1 v.2 := by
  have hkeep : ∀ {k e}, Assigned old c k e → Assigned old c' k e := fun h =>
    h.mono (hputs ▸ List.subset_append_left _ _)
  intro v hv
  cases ev with
  | client requestor msg stamp uuid =>
    cases msg with
    | putKey msg =>
      cases hv
      refine Or.inl ⟨⟨x, uuid, msg, requestor, stamp⟩, ?_, rfl, rfl⟩
      exact hputs ▸ List.mem_append_right _ (mem_putsOf_of_event hev)
    | _ => cases hv
  | server source msg =>
    obtain ⟨p, hp, -, -, hmsg⟩ := mem_net_of_event hev
    cases msg with
    | doWrite msg =>
      cases hv
      rcases h.carried p hp (msg.key, ⟨msg.val, msg.timestamp⟩) (hmsg ▸ rfl) with
        hassigned | ⟨-, m, hresponse⟩
      · exact hkeep hassigned
      · rw [hmsg] at hresponse
        cases hresponse
    | readRepairResponse msg =>
      rcases h.carried p hp v (hmsg ▸ Coordinator.carries_of_writes hv) with
        hassigned | ⟨hmissing, -⟩
      · exact hkeep hassigned
      · rw [hmissing]
        apply hkeep
        -- a repair with the oldest timestamp is ruled out
        apply hgenuine v.1
        unfold repaired
        rw [hev, ← hmissing]
        exact hv
    | _ => cases hv
  | _ => cases hv

variable [DecidableEq ι]

/-- **One step.** -/
theorem Sourced.step (h : Sourced codecs.replica old c) {a : Action ι} (hgenuine : Genuine old c a)
    (hstep : c.step codecs a = some c') : Sourced codecs.replica old c' := by
  -- A lost message leaves every server as it was; else one server handles an event.
  rcases event_of_step hstep with ⟨-, hnode, hputs, hnet⟩ |
    ⟨x, ev, m, es, hev, hhandle, hnode, hputs, hnet⟩
  · have hkeep : ∀ k e, Assigned old c k e → Assigned old c' k e := fun k e h =>
      h.mono (hputs ▸ List.Subset.refl _)
    refine ⟨fun x => ?_, fun x => ?_, fun p hp v hv => ?_⟩
    · rw [hnode]
      exact (h.stocked x).mono hkeep
    · rw [hnode]
      exact (h.recorded x).mono hkeep
    · exact (h.carried p (hnet hp) v hv).imp_left (hkeep _ _)
  · have hkeep : ∀ k e, Assigned old c k e → Assigned old c' k e := fun k e h =>
      h.mono (hputs ▸ List.subset_append_left _ _)
    have hwrites := h.assigned hev hgenuine hputs
    -- What was assigned before the step is assigned after it, since the list of puts only grows.
    have hstocked : ∀ y, (c.node y).Stocked codecs.replica (Assigned old c') := fun y =>
      (h.stocked y).mono hkeep
    refine ⟨?_, ?_, fun p hp v hv => ?_⟩
    · refine forall_node_of_update (P := fun _ n => n.Stocked codecs.replica (Assigned old c'))
        hnode ?_ hstocked
      exact (hstocked x).handle hhandle hwrites
    · refine forall_node_of_update
        (P := fun _ n => n.replica.Recorded codecs.replica (Assigned old c')) hnode ?_
        fun y => (h.recorded y).mono hkeep
      exact ((h.recorded x).mono hkeep).grows (hstocked x).replica.queue
        (Coordinator.handles_of_handle hhandle).grows
    · rcases hnet p hp with hold | ⟨e, he, hpacket⟩
      · exact (h.carried p hold v hv).imp_left (hkeep _ _)
      · obtain ⟨ch, rfl, -⟩ := packet_eq_some hpacket
        rcases Coordinator.given_of_handle (hstocked x) hhandle hwrites he hv with
          hassigned | ⟨-, hmissing, hresponse⟩
        · exact Or.inl hassigned
        · exact Or.inr ⟨hmissing, _, hresponse⟩

/-- **Stores hold what was put.** In every run, in any mode, in which no response that stands for
a missing copy is written to a store, every element of a store and every record of a log is a
value with the stamp that a put has given it. -/
theorem only_puts_stored (D : Deployment ι) (codecs : Coordinator.Codecs)
    (hold : ∀ x, ∀ m ∈ old x, codecs.replica.Fits m) (hintFile : ι → List UInt8)
    {as : List (Action ι)}
    (hgenuine : Along (step codecs) (Genuine old) (start D codecs.replica old hintFile) as)
    (hrun : exec (step codecs) (start D codecs.replica old hintFile) as = some c) (x : ι) :
    (∀ k e, (c.node x).replica.store k = some e → Assigned old c k e) ∧
      ∃ ms, (c.node x).replica.file = Log.records codecs.replica ms ∧
        ∀ m ∈ ms, Assigned old c m.key ⟨m.val, m.timestamp⟩ := by
  have hinv : Sourced codecs.replica old c := by
    refine exec_inv_along ?_ (sourced_start D hold hintFile) hgenuine hrun
    exact fun c a c' hc hg hstep => hc.step hg hstep
  exact ⟨(hinv.stocked x).replica.store, hinv.recorded x⟩

/-! ## A get of what nobody has put -/

/-- Two servers that repair on reads, each the replica of the other. -/
def repairPair : Deployment Bool where
  config b := ⟨"127.0.0.1", if b then 9002 else 9001,
    [("127.0.0.1", if b then "9001" else "9002")], .readRepair⟩
  distinct := by decide
  nodup := by decide
  others := by decide

noncomputable def repairCodecs : Coordinator.Codecs := ⟨firstCodec, hintProto⟩

/-- Both servers with empty logs. -/
noncomputable def repairStart : Cluster Bool :=
  start repairPair firstCodec (fun _ => []) fun _ => []

/-- The logs are replayed and the first server connects to the second. -/
def repairOpening : List (Action Bool) :=
  [.run false .log, .run true .log, .connect false 0 true, .run false (.posted 0), .deliver 0]

/-- A get of the key 5 at the first server, with its read repair. -/
def repairGet : List (Action Bool) :=
  [.client false 0 (.getKey ⟨7, 5, 1⟩) ⟨200, 0⟩ "g", .run false (.posted 0), .deliver 0,
    .deliver 0]

/-- A put before the get: the response of the second server is answered with the element. -/
def repairedPut : List (Action Bool) := repairOpening ++
  [.client false 0 (.putKey ⟨7, 5, "v", 1⟩) ⟨100, 0⟩ "u", .run false .log] ++ repairGet ++
  [.deliver 0, .run true .log]

/-- A get repairs the server that a put has not reached, with the value of the put. -/
theorem only_puts_stored_pair : ∃ c, exec (step repairCodecs) repairStart repairedPut = some c ∧
    (c.node true).replica.store 5 = some ⟨"v", ⟨100, 0⟩⟩ ∧
    Assigned (fun _ => []) c 5 ⟨"v", ⟨100, 0⟩⟩ := by
  have hend : (exec (step repairCodecs) repairStart repairedPut).any (fun c =>
      (c.node true).replica.store 5 = some ⟨"v", ⟨100, 0⟩⟩) = true := by
    decide +kernel
  obtain ⟨c, hrun, hc⟩ := (Option.any_eq_true _ _).mp hend
  have hstore := of_decide_eq_true hc
  have hgenuine : Along (step repairCodecs) (Genuine fun _ => []) repairStart repairedPut := by
    have hnone : Along (step repairCodecs)
        (fun c a => (c.repaired a).all (fun v => v.2 ≠ Coordinator.missing) = true)
        repairStart repairedPut := by
      decide +kernel
    refine along_of_inv (P := fun _ => True) (fun _ _ _ _ _ _ => trivial) ?_ trivial hnone
    intro c a _ hall k hk
    rw [hk] at hall
    exact absurd rfl (of_decide_eq_true (p := Coordinator.missing ≠ Coordinator.missing) hall)
  exact ⟨c, hrun, hstore,
    (only_puts_stored repairPair repairCodecs (fun _ _ hm => (by cases hm)) (fun _ => []) hgenuine
      hrun true).1 5 _ hstore⟩

/-- **A version that nobody has put.** The first server writes the response of the second, which
has no copy, to its log and its store. -/
theorem missing_stored : ∃ c,
    exec (step repairCodecs) repairStart (repairOpening ++ repairGet ++ [.run false .log])
      = some c ∧
    (c.node false).replica.store 5 = some ⟨"", ⟨0, 0⟩⟩ ∧
    ¬ Assigned (fun _ => []) c 5 ⟨"", ⟨0, 0⟩⟩ := by
  have hend : (exec (step repairCodecs) repairStart
      (repairOpening ++ repairGet ++ [.run false .log])).any (fun c =>
        (c.node false).replica.store 5 = some ⟨"", ⟨0, 0⟩⟩ ∧ c.puts = []) = true := by
    decide +kernel
  obtain ⟨c, hrun, hc⟩ := (Option.any_eq_true _ _).mp hend
  obtain ⟨hstore, hputs⟩ := of_decide_eq_true hc
  refine ⟨c, hrun, hstore, ?_⟩
  rintro (⟨put, hput, -⟩ | ⟨x, m, hm, -⟩)
  · rw [hputs] at hput
    cases hput
  · cases hm

end Cluster

end Cs457.Kv
