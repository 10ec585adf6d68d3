import Cs457.Kv.Tracking
import Cs457.Kv.Recovery

/-!
# Key-value store — acknowledged writes

A put goes to the coordinator's own replica, is announced to the others with DoWrite and is
acknowledged to the client when as many WriteCompletes have come back as its consistency asks
for. A server sends its WriteComplete when it has handed the record to its replica, so the
acknowledgement counts servers that have *received* the record. Received is not durable: the
record may still wait in the log's strand.

* **`Tracked.exists_received`** — the servers counted for a put are distinct and have received
  its record.
* **`ack_durable`** — in a run in which no acknowledgement is sent while a server counted for
  it has the record in its queue, every acknowledged put is durable at enough servers.
* **`ack_of_pair_not_durable`** — the write strand can overtake the log's.
-/

namespace Cs457.Kv

open Transition

namespace Cluster

variable {ι : Type} {D : Deployment ι} {codecs : Coordinator.Codecs} {c : Cluster ι}

/-! ## Acknowledgements -/

/-- What an event hands to the channels. -/
def handed : Option (Coordinator × List Effect) → List Effect
  | some res => res.2
  | none => []

/-- What a step hands to the channels. -/
def effects (codecs : Coordinator.Codecs) (c : Cluster ι) : Action ι → List Effect
  | .client x requestor msg stamp uuid =>
    handed ((c.node x).handle codecs (.client requestor msg stamp uuid))
  | .deliver n => match c.net[n]? with
    | none => []
    | some p => handed ((c.node p.dst).handle codecs (.server p.chan p.msg))
  | .lose _ => []
  | .connect x i _ => handed ((c.node x).handle codecs (.connected i))
  | .run x task => handed ((c.node x).handle codecs task.event)

/-- The step runs a task of the put. -/
def Serves (c : Cluster ι) (a : Action ι) (P : Put ι) : Prop :=
  a = .run P.node .write ∧
    (c.node P.node).writeStrand.head?.map WriteTask.uuid = some P.uuid

/-- The servers that the next task of a put counts: the coordinator and those whose
WriteComplete this task handles or an earlier one has handled. -/
def CountedFor (D : Deployment ι) (c : Cluster ι) (P : Put ι) (y : ι) : Prop :=
  y = P.node ∨ ∃ s, (P.uuid, s) ∈ c.acks ++ ackedBy .write (c.node P.node).writeStrand ∧
    (D.config P.node).replicas[s]? = some (D.config y).address

/-- At least `n` servers have the record in their log, or hold an element that is as new. -/
def DurableAt (codec : Codec DoWrite) (c : Cluster ι) (m : DoWrite) (n : ℕ) : Prop :=
  ∃ S : Finset ι, n ≤ S.card ∧ ∀ y ∈ S, (c.node y).replica.Durable codec m

/-- **The contract of an acknowledgement.** A PutKeyResp that a step hands to a client answers
a put of that client, and the put is durable at as many servers as its consistency. -/
def AckDurable (codecs : Coordinator.Codecs) (c : Cluster ι) (a : Action ι) : Prop :=
  ∀ requestor resp, .reply requestor (.putKeyResp resp) ∈ c.effects codecs a →
    ∃ P ∈ c.puts, c.Serves a P ∧ requestor = P.requestor ∧ resp = ⟨P.msg.stream, P.msg.key⟩ ∧
      c.DurableAt codecs.replica P.record P.msg.consistency.toNat

/-- The log strand is not behind: when a PutKeyResp is handed to a client, no server counted
for the put has its record in the queue of the log. -/
def AckFlushed (D : Deployment ι) (codecs : Coordinator.Codecs) (c : Cluster ι) (a : Action ι) :
    Prop :=
  ∀ requestor resp, .reply requestor (.putKeyResp resp) ∈ c.effects codecs a →
    ∀ P ∈ c.puts, c.Serves a P → ∀ y, CountedFor D c P y → ¬ (c.node y).replica.Queued P.record

/-! ## Only the write strand acknowledges -/

/-- A put is answered by a task of the write strand. -/
theorem runWrite_of_putKeyResp {codec : Codec DoWrite} {m m' : Coordinator}
    {ev : Coordinator.Event} {es : List Effect} (h : m.Handles codec ev m' es) {requestor : Client}
    {resp : PutKeyResp} (hmem : .reply requestor (.putKeyResp resp) ∈ es) : ev = .runWrite := by
  cases h with
  | put => cases hmem
  | introduce => cases hmem
  | doWrite =>
    split at hmem
    · cases hmem
    · cases List.mem_singleton.mp hmem
  | writeComplete => cases hmem
  | startWrite => rfl
  | completeWrite => rfl
  | other _ _ _ _ _ _ aside => exact absurd (aside _ hmem) id

/-- A step that hands a PutKeyResp to a client runs a task of the write strand. -/
theorem run_of_putKeyResp {a : Action ι} {requestor : Client} {resp : PutKeyResp}
    (hmem : .reply requestor (.putKeyResp resp) ∈ c.effects codecs a) :
    ∃ x m es, a = .run x .write ∧ (c.node x).handle codecs .runWrite = some (m, es) ∧
      .reply requestor (.putKeyResp resp) ∈ es := by
  -- The acknowledgement is sent by the write strand alone.
  have hhanded : ∀ {x : ι} {ev : Coordinator.Event},
      .reply requestor (.putKeyResp resp) ∈ handed ((c.node x).handle codecs ev) →
      ev = .runWrite ∧ ∃ m es, (c.node x).handle codecs .runWrite = some (m, es) ∧
        .reply requestor (.putKeyResp resp) ∈ es := by
    intro x ev hmem
    cases hres : (c.node x).handle codecs ev with
    | none =>
      rw [hres] at hmem
      cases hmem
    | some res =>
      rw [hres] at hmem
      obtain rfl := runWrite_of_putKeyResp (Coordinator.handles_of_handle hres) hmem
      exact ⟨rfl, res.1, res.2, hres, hmem⟩
  cases a with
  | client x r msg stamp uuid => cases (hhanded hmem).1
  | deliver n =>
    simp only [effects] at hmem
    split at hmem
    · cases hmem
    · cases (hhanded hmem).1
  | lose n => cases hmem
  | connect x i y => cases hmem
  | run x task =>
    obtain ⟨hev, m, es, hres⟩ := hhanded hmem
    cases task with
    | write => exact ⟨x, m, es, rfl, hres⟩
    | _ => cases hev

/-! ## The servers counted for a put -/

/-- The WriteCompletes counted for a put come from different replicas. -/
theorem Tracked.acks_nodup {codec : Codec DoWrite} {P : Put ι} (h : Tracked D codec c P) :
    (c.acks.filter fun a => a.1 = P.uuid).Nodup := by
  rw [List.nodup_iff_count_le_one]
  rintro ⟨u, s⟩
  by_cases hu : u = P.uuid
  · subst hu
    have hone := h.once s
    rw [tokens] at hone
    rw [List.count_filter (by simp)]
    omega
  · rw [List.count_eq_zero.mpr]
    · exact zero_le_one
    · intro hmem
      exact hu (of_decide_eq_true (List.mem_filter.mp hmem).2)

/-- **The servers counted for a put** are distinct and have received its record. -/
theorem Tracked.exists_received [DecidableEq ι] {codec : Codec DoWrite} {P : Put ι}
    (h : Tracked D codec c P) :
    ∃ S : Finset ι, S.card = counted c P.uuid + 1 ∧ ∀ y ∈ S, ReceivedAt codec c y P.record ∧
      (y = P.node ∨ ∃ s, (P.uuid, s) ∈ c.acks ∧
        (D.config P.node).replicas[s]? = some (D.config y).address) := by
  have : Nonempty ι := ⟨P.node⟩
  have hacked := h.acked
  simp only [ReplicaReceived] at hacked
  choose! f haddress hreceived using hacked
  let T := (c.acks.filter fun a => a.1 = P.uuid).toFinset
  have hT : ∀ a ∈ T, a.1 = P.uuid ∧ (P.uuid, a.2) ∈ c.acks := by
    rintro ⟨u, s⟩ ha
    obtain ⟨hmem, hu⟩ := List.mem_filter.mp (List.mem_toFinset.mp ha)
    obtain rfl : u = P.uuid := of_decide_eq_true hu
    exact ⟨rfl, hmem⟩
  -- the numbers stand for different servers
  have hinj : Set.InjOn (fun a : String × ℕ => f a.2) T := by
    rintro ⟨u, s⟩ ha ⟨v, r⟩ hb hf
    obtain ⟨rfl, hs⟩ := hT _ ha
    obtain ⟨rfl, hr⟩ := hT _ hb
    have hr' := haddress r hr
    rw [← show f s = f r from hf] at hr'
    rw [D.index_unique (haddress s hs) hr']
  -- and none of them for the coordinator itself
  have hnode : P.node ∉ T.image fun a => f a.2 := by
    intro hmem
    obtain ⟨a, ha, hf⟩ := Finset.mem_image.mp hmem
    have := haddress a.2 (hT a ha).2
    rw [hf] at this
    exact D.others P.node (List.mem_of_getElem? this)
  refine ⟨insert P.node (T.image fun a => f a.2), ?_, fun y hy => ?_⟩
  · rw [Finset.card_insert_of_notMem hnode, Finset.card_image_of_injOn hinj,
      List.toFinset_card_of_nodup h.acks_nodup, counted, List.countP_eq_length_filter]
  · rcases Finset.mem_insert.mp hy with rfl | hy
    · exact ⟨h.own, Or.inl rfl⟩
    · obtain ⟨a, ha, rfl⟩ := Finset.mem_image.mp hy
      obtain ⟨_, hmem⟩ := hT a ha
      exact ⟨hreceived a.2 hmem, Or.inr ⟨a.2, hmem, haddress a.2 hmem⟩⟩

/-! ## The acknowledgement of a put -/

/-- A task of the write strand belongs to a put. -/
theorem Sane.exists_put {codec : Codec DoWrite} (h : Sane D codec c) {x : ι} {t : WriteTask}
    (ht : t ∈ (c.node x).writeStrand) :
    ∃ P ∈ c.puts, P.uuid = WriteTask.uuid t ∧ P.node = x ∧ FineTask D codec c P t := by
  by_contra hnone
  push Not at hnone
  refine (h.tidy (WriteTask.uuid t) fun P hP heq => ?_).strand x t ht rfl
  obtain ⟨hx, hfine⟩ := (h.tracked P hP).tasks x t ht heq.symm
  exact hnone P hP heq hx.symm hfine

/-- A counter that has come down to 1 has been counted down often enough. -/
theorem toNat_le_of_sub {k : UInt32} {n : ℕ} (h : k - 1 - UInt32.ofNat n = 1) :
    k.toNat ≤ n + 2 := by
  have hk : k = UInt32.ofNat (n + 2) := by
    rw [UInt32.ofNat_add, show UInt32.ofNat 2 = 1 + 1 from rfl]
    grind
  rw [hk, UInt32.toNat_ofNat']
  exact Nat.mod_le _ _

/-- **An acknowledgement answers the put of the task**, and counts as many servers as the put
asks for. -/
theorem Sane.answers (h : Sane D codecs.replica c) {x : ι} {m : Coordinator} {es : List Effect}
    (hhandle : (c.node x).handle codecs .runWrite = some (m, es)) {requestor : Client}
    {resp : PutKeyResp} (hmem : .reply requestor (.putKeyResp resp) ∈ es) :
    m.replica = (c.node x).replica ∧ ∃ P ∈ c.puts, P.node = x ∧
      (c.node x).writeStrand.head?.map WriteTask.uuid = some P.uuid ∧
      requestor = P.requestor ∧ resp = ⟨P.msg.stream, P.msg.key⟩ ∧
      P.msg.consistency.toNat
        ≤ (c.acks ++ ackedBy .write (c.node x).writeStrand).countP (fun a => a.1 = P.uuid) + 1 := by
  generalize hev : Coordinator.Event.runWrite = ev at hhandle
  have hkind := Coordinator.handles_of_handle hhandle
  cases hkind with
  | put | introduce | doWrite | writeComplete => cases hev
  | @startWrite msg r uuid stamp rest _ replies keeps head replica strand pending reply =>
    obtain ⟨P, hP, rfl, hx, rfl, rfl, rfl⟩ := h.exists_put (x := x) (head ▸ List.mem_cons_self)
    refine ⟨replica, P, hP, hx, by rw [head]; rfl, ?_⟩
    rcases List.mem_append.mp hmem with hmem | hmem
    · rw [reply] at hmem
      split at hmem
      · next hone =>
        obtain ⟨rfl, hresp⟩ := Effect.reply.inj (List.mem_singleton.mp hmem)
        refine ⟨rfl, ClientMessage.putKeyResp.inj hresp, ?_⟩
        rw [hone]
        exact Nat.le_add_left 1 _
      · cases hmem
    · obtain ⟨i, _, heq⟩ := List.mem_map.mp hmem
      cases heq
  | @completeWrite msg sender rest entry _ _ keeps head replica strand found pending reply =>
    obtain ⟨P, hP, hu, rfl, _⟩ := h.exists_put (x := x) (head ▸ List.mem_cons_self)
    refine ⟨replica, P, hP, rfl, by rw [head, hu]; rfl, ?_⟩
    -- the entry that was found is the put's, counted down
    rw [← show P.uuid = msg.uuid from hu] at found
    have hbegun : Begun c P := (h.tracked P hP).phase.resolve_left fun hwaiting =>
      hwaiting.pending (UnorderedMap.mem_iff_exists_lookup.mpr ⟨entry, found⟩)
    obtain rfl := Option.some.inj (hbegun.entry.symm.trans found)
    rw [reply] at hmem
    split at hmem
    · next hone =>
      obtain ⟨rfl, hresp⟩ := Effect.reply.inj (List.mem_singleton.mp hmem)
      refine ⟨rfl, ClientMessage.putKeyResp.inj hresp, ?_⟩
      have hacked : ackedBy .write (c.node P.node).writeStrand = [(P.uuid, sender)] := by
        rw [head, hu]
        rfl
      have hcounted : (c.acks ++ [(P.uuid, sender)]).countP (fun a => a.1 = P.uuid)
          = counted c P.uuid + 1 := by
        rw [List.countP_append, List.countP_singleton, counted]
        simp
      rw [hacked, hcounted]
      exact toNat_le_of_sub hone
    · cases hmem
  | other keeps noPut noWrite => exact absurd hev.symm noWrite

/-- **One step.** The servers counted for an acknowledged put have received its record; when
none has it in the queue, they all have flushed it. -/
theorem Sane.ackDurable [DecidableEq ι] (h : Sane D codecs.replica c) {a : Action ι}
    (hflushed : AckFlushed D codecs c a) : AckDurable codecs c a := by
  intro requestor resp hmem
  obtain ⟨x, m, es, rfl, hhandle, hreply⟩ := run_of_putKeyResp hmem
  obtain ⟨hreplica, P, hP, rfl, hhead, hrequestor, hresp, hcount⟩ := h.answers hhandle hreply
  have hserves : c.Serves (.run P.node .write) P := ⟨rfl, hhead⟩
  refine ⟨P, hP, hserves, hrequestor, hresp, ?_⟩
  -- the state after the step has counted the task's own WriteComplete
  have hstep : c.step codecs (.run P.node .write) = some { c.advance P.node c.net (m, es) with
      acks := c.acks ++ ackedBy .write (c.node P.node).writeStrand } := by
    rw [Cluster.step, show Task.write.event = .runWrite from rfl, hhandle]
    rfl
  obtain ⟨S, hcard, hS⟩ := ((h.step hstep).tracked P hP).exists_received
  refine ⟨S, hcount.trans hcard.ge, fun y hy => ?_⟩
  obtain ⟨hreceived, hcounted⟩ := hS y hy
  have hsame : (Function.update c.node P.node m y).replica = (c.node y).replica :=
    update_same Coordinator.replica hreplica y
  rw [ReceivedAt] at hreceived
  simp only [advance, hsame] at hreceived
  exact hreceived.resolve_left (hflushed requestor resp hmem P hP hserves y hcounted)

/-- **Acknowledged writes are durable** in every run in which the logs keep up with the
acknowledgements. Induction on the run: every state satisfies the invariant. -/
theorem ack_durable [DecidableEq ι] (D : Deployment ι) (codecs : Coordinator.Codecs)
    (old : ι → List DoWrite) (hintFile : ι → List UInt8) (as : List (Action ι))
    (h : Along (step codecs) (AckFlushed D codecs) (start D codecs.replica old hintFile) as) :
    Along (step codecs) (AckDurable codecs) (start D codecs.replica old hintFile) as := by
  refine along_of_inv (fun c a c' hsane _ hstep => ?_) (fun c a hsane hflushed => ?_)
    (sane_start D codecs.replica old hintFile) h
  · exact hsane.step hstep
  · exact hsane.ackDurable hflushed

/-! ## Two servers -/

/-- Two servers, each the replica of the other. -/
def twoServers : Deployment Bool where
  config b := ⟨"127.0.0.1", if b then 9002 else 9001,
    [("127.0.0.1", if b then "9001" else "9002")], .other⟩
  distinct := by decide
  nodup := by decide
  others := by decide

noncomputable def twoCodecs : Coordinator.Codecs := ⟨firstCodec, hintCodec⟩

/-- Both servers with empty logs. -/
noncomputable def twoStart : Cluster Bool := start twoServers firstCodec (fun _ => []) fun _ => []

/-- A put of "v" under the key 5 with consistency 1. -/
def twoPut : Action Bool := .client false 0 (.putKey ⟨7, 5, "v", 1⟩) ⟨100, 0⟩ "u"

/-- A step that runs no task of a write strand acknowledges nothing. -/
theorem ackFlushed_of_ne {a : Action ι} (h : ∀ x, a ≠ .run x .write) : AckFlushed D codecs c a := by
  intro requestor resp hmem
  obtain ⟨x, m, es, hrun, _⟩ := run_of_putKeyResp hmem
  exact absurd hrun (h x)

/-- The log runs before the write strand. -/
theorem ack_durable_pair :
    Along (step twoCodecs) (AckDurable twoCodecs) twoStart
      [twoPut, .run false .log, .run false .log, .run false .write] ∧
    ∃ c, exec (step twoCodecs) twoStart [twoPut, .run false .log, .run false .log] = some c ∧
      .reply 0 (.putKeyResp ⟨7, 5⟩) ∈ c.effects twoCodecs (.run false .write) := by
  refine ⟨ack_durable twoServers twoCodecs (fun _ => []) (fun _ => []) _ ?_, _, rfl,
    List.mem_cons_self⟩
  refine ⟨ackFlushed_of_ne nofun, fun c₁ h₁ => ⟨ackFlushed_of_ne nofun, fun c₂ h₂ =>
    ⟨ackFlushed_of_ne nofun, fun c₃ h₃ => ⟨?_, fun _ _ => trivial⟩⟩⟩⟩
  obtain rfl := Option.some.inj h₁
  obtain rfl := Option.some.inj h₂
  obtain rfl := Option.some.inj h₃
  intro requestor resp _ P hP _ y hy
  obtain rfl := List.mem_singleton.mp hP
  rcases hy with rfl | ⟨s, hs, _⟩
  · exact List.not_mem_nil
  · cases hs

/-- **The write strand overtakes the log's.** The put is acknowledged while its record is in
no log and in no store. -/
theorem ack_of_pair_not_durable :
    ¬ Along (step twoCodecs) (AckDurable twoCodecs) twoStart [twoPut, .run false .write] := by
  intro h
  have hack := (h.2 _ rfl).1
  obtain ⟨P, hP, _, _, _, S, hcard, hS⟩ := hack 0 ⟨7, 5⟩ List.mem_cons_self
  obtain rfl := List.mem_singleton.mp hP
  obtain ⟨y, hy⟩ := Finset.card_pos.mp hcard
  rcases hS y hy with ⟨ms, hms, hmem⟩ | ⟨e, he, _⟩
  · have hnil : Log.records firstCodec ms = [] := by cases y <;> exact hms.symm
    have hlen := congrArg List.length (List.flatMap_eq_nil_iff.mp hnil _ hmem)
    rw [Log.length_record] at hlen
    exact absurd hlen (by simp)
  · cases y <;> cases he

end Cluster

end Cs457.Kv
