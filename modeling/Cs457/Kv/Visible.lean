import Cs457.Kv.Durability

/-!
# Key-value store — acknowledged writes are found

An acknowledgement can be ahead of the logs, so that the put is in no log and in no store when
the client gets it. But the servers that are counted for it have taken the record in, and a
replica does not forget what it has taken in: it waits in the strand of the log, and the task that
takes it from there stores it or finds an element that is at least as new. So from then on, whatever
happens, each of these servers answers with an element whose timestamp is not smaller than that of
the put as soon as that task has run. It need not be the put itself: of two puts with one timestamp
the first to be stored stays.

* **`Taken.grows`** — a replica does not forget.
* **`Vouched.step`** — a WriteComplete is sent, handled and counted for a server that has taken the
  record in.
* **`acked_put_found`** — what a client may rely on.
-/

namespace Cs457.Kv

open Transition

namespace Replica

variable {codec : Codec DoWrite} {r r' : Replica} {m : DoWrite}

/-- The record waits in the strand, or what is stored is as new. -/
def Taken (r : Replica) (m : DoWrite) : Prop := r.Queued m ∨ storeRegister.Covers r.store m

/-- What is written has been taken in. -/
theorem taken_write {key : UInt32} {data : String} {timestamp : Timestamp}
    (h : r.write key data timestamp = .ok r') : r'.Taken (logRecord key data timestamp) := by
  obtain ⟨-, ⟨hcover, rfl⟩ | ⟨-, rfl⟩⟩ := write_ok h
  · exact Or.inr hcover
  · exact Or.inl (List.mem_append_right _ List.mem_cons_self)

/-- **A replica does not forget.** The task of the record stores it, unless what is there is at
least as new. -/
theorem Taken.grows (h : r.Taken m) (hgrows : Grows codec r r') : r'.Taken m := by
  -- What has been taken is queued or covered by the store, and leaves the queue only into the
  -- store.
  cases hgrows with
  | same => exact h
  | write hwrite =>
    obtain ⟨-, ⟨-, rfl⟩ | ⟨-, rfl⟩⟩ := write_ok hwrite
    · exact h
    · exact h.imp_left fun hq => List.mem_append_left _ hq
  | task htask =>
    obtain ⟨t, rest, hstrand, hperform⟩ := runTask_eq_some htask
    cases t with
    | update m₀ =>
      obtain rfl := Except.ok.inj hperform
      rw [Taken, updateTask_store]
      rcases h with hq | hcover
      · rw [Queued, hstrand] at hq
        rcases List.mem_cons.mp hq with heq | hq
        · obtain rfl := LogTask.update.inj heq
          exact Or.inr (storeRegister.covers_put_self _ m)
        · exact Or.inl hq
      · exact Or.inr hcover.put
    | replay =>
      obtain ⟨hstore, -, hsub⟩ := replay_keeps hperform
      rcases h with hq | hcover
      · rw [Queued, hstrand] at hq
        exact Or.inl (hsub ((List.mem_cons.mp hq).resolve_left fun heq => (by cases heq)))
      · exact Or.inr (hstore ▸ hcover)

end Replica

namespace Cluster

variable {ι : Type} {D : Deployment ι} {codecs : Coordinator.Codecs} {c c' : Cluster ι} {P : Put ι}

/-- The server `y` has taken the record in. -/
def TakenAt (c : Cluster ι) (y : ι) (m : DoWrite) : Prop := (c.node y).replica.Taken m

/-- The `s`-th replica of the coordinator has taken the record in. -/
def ReplicaTaken (D : Deployment ι) (c : Cluster ι) (P : Put ι) (s : ℕ) : Prop :=
  ∃ z, (D.config P.node).replicas[s]? = some (D.config z).address ∧ TakenAt c z P.record

/-- **The invariant of the WriteCompletes of a put**: on the way, in the strand, counted. -/
structure Vouched (D : Deployment ι) (c : Cluster ι) (P : Put ι) : Prop where
  own : TakenAt c P.node P.record
  packets : ∀ p ∈ c.net, p.msg = .writeComplete ⟨P.uuid⟩ → TakenAt c p.src P.record
  tasks : ∀ s, .complete ⟨P.uuid⟩ s ∈ (c.node P.node).writeStrand → ReplicaTaken D c P s
  acked : ∀ s, (P.uuid, s) ∈ c.acks → ReplicaTaken D c P s

section Step

variable [DecidableEq ι]

/-- No step of the cluster makes a server forget. -/
theorem TakenAt.step {y : ι} {m : DoWrite} (h : TakenAt c y m) {a : Action ι}
    (hstep : c.step codecs a = some c') : TakenAt c' y m :=
  h.grows (grows_step hstep y)

/-- A put is taken in by its coordinator at once. -/
theorem taken_of_put {a : Action ι} (hstep : c.step codecs a = some c') (hP : P ∈ c'.puts) :
    P ∈ c.puts ∨ (∀ put ∈ c.puts, put.uuid ≠ P.uuid) ∧ TakenAt c' P.node P.record := by
  cases steps_of_step hstep with
  | @client x requestor msg stamp uuid m es unused handle =>
    rcases List.mem_append.mp hP with hP | hP
    · exact Or.inl hP
    · cases msg with
      | putKey msg =>
        obtain rfl := List.mem_singleton.mp hP
        refine Or.inr ⟨unused.2, ?_⟩
        cases Coordinator.handles_of_handle handle with
        | put keeps write =>
          show (Function.update c.node x m x).replica.Taken _
          rw [Function.update_self]
          exact Replica.taken_write write
        | other keeps noPut => exact absurd rfl (noPut requestor msg stamp uuid)
      | _ => cases hP
  | deliver => exact Or.inl hP
  | lose => exact Or.inl hP
  | connect => exact Or.inl hP
  | run => exact Or.inl hP

/-- **A WriteComplete is sent** by a server that has handled a DoWrite of the same put, and has
taken its record in. -/
theorem taken_of_writeComplete {a : Action ι} (hstep : c.step codecs a = some c') {q : Packet ι}
    (hq : q ∈ c'.net) {u : String} (hmsg : q.msg = .writeComplete ⟨u⟩) :
    q ∈ c.net ∨ ∃ p ∈ c.net, ∃ msg, p.msg = .doWrite msg ∧ msg.uuid = u ∧ u ≠ "RR" ∧
      TakenAt c' q.src (Replica.logRecord msg.key msg.val msg.timestamp) := by
  rcases event_of_step hstep with ⟨-, -, -, hnet⟩ | ⟨x, ev, m, es, hev, hhandle, hnode, -, hnet⟩
  · exact Or.inl (hnet hq)
  · refine (hnet q hq).imp_right fun ⟨e, he, hpacket⟩ => ?_
    obtain ⟨ch, rfl, hsrc, -⟩ := packet_eq_some hpacket
    rw [hmsg] at he
    -- Only `handleDoWrite` answers with a WriteComplete, unless the DoWrite is a repair.
    cases Coordinator.handles_of_handle hhandle with
    | put => cases he
    | introduce => cases he
    | @doWrite source msg id _ keeps sender write =>
      split at he
      · cases he
      · next hregular =>
        cases List.mem_singleton.mp he
        obtain ⟨p, hp, -, -, hcontent⟩ := mem_net_of_event hev
        refine ⟨p, hp, msg, hcontent, rfl, hregular, ?_⟩
        rw [TakenAt, hsrc, hnode, Function.update_self]
        exact Replica.taken_write write
    | writeComplete => cases he
    | startWrite keeps head replica strand pending reply =>
      rw [reply] at he
      rcases List.mem_append.mp he with he | he
      · split at he
        · cases List.mem_singleton.mp he
        · cases he
      · obtain ⟨i, -, heq⟩ := List.mem_map.mp he
        cases heq
    | completeWrite keeps head replica strand found pending reply =>
      rw [reply] at he
      split at he
      · cases List.mem_singleton.mp he
      · cases he
    | other keeps noPut noWrite replica strand pending aside => exact absurd (aside _ he) id

/-- **A WriteComplete is handled** by the server that it goes to, which knows who sent it. -/
theorem packet_of_task {codec : Codec DoWrite} (h : Moves D codec c c') {x : ι} {u : String} {s : ℕ}
    (htask : .complete ⟨u⟩ s ∈ (c'.node x).writeStrand) :
    .complete ⟨u⟩ s ∈ (c.node x).writeStrand ∨ ∃ p ∈ c.net, p.msg = .writeComplete ⟨u⟩ ∧
      p.dst = x ∧ (D.config x).replicas[s]? = some (D.config p.src).address := by
  -- Only the WriteComplete that is handled puts such a task into the strand.
  cases h with
  | aside puts acks strand => exact Or.inl (strand x ▸ htask)
  | put put unused puts acks net strand =>
    rw [strand] at htask
    split at htask
    · rcases List.mem_append.mp htask with htask | hstart
      · exact Or.inl htask
      · cases List.mem_singleton.mp hstart
    · exact Or.inl htask
  | written p msg content regular puts acks strand => exact Or.inl (strand x ▸ htask)
  | done p msg content id sender puts acks taken strand =>
    rw [strand] at htask
    split at htask
    · next hx =>
      rcases List.mem_append.mp htask with htask | hnew
      · exact Or.inl htask
      · cases List.mem_singleton.mp hnew
        exact Or.inr ⟨p, taken.symm.subset List.mem_cons_self, content, hx.symm, hx ▸ sender⟩
    · exact Or.inl htask
  | started y msg requestor uuid stamp rest head puts acks new net strand =>
    rw [strand] at htask
    split at htask
    · next hx => exact Or.inl (hx ▸ head ▸ List.mem_cons_of_mem _ htask)
    · exact Or.inl htask
  | completed y msg sender rest head puts acks net strand =>
    rw [strand] at htask
    split at htask
    · next hx => exact Or.inl (hx ▸ head ▸ List.mem_cons_of_mem _ htask)
    · exact Or.inl htask

/-- **A WriteComplete is counted** by a task. -/
theorem task_of_ack {codec : Codec DoWrite} (h : Moves D codec c c') {u : String} {s : ℕ}
    (hack : (u, s) ∈ c'.acks) :
    (u, s) ∈ c.acks ∨ ∃ x, .complete ⟨u⟩ s ∈ (c.node x).writeStrand := by
  cases h with
  | aside puts acks => exact Or.inl (acks ▸ hack)
  | put put unused puts acks => exact Or.inl (acks ▸ hack)
  | written p msg content regular puts acks => exact Or.inl (acks ▸ hack)
  | done p msg content id sender puts acks => exact Or.inl (acks ▸ hack)
  | started x msg requestor uuid stamp rest head puts acks => exact Or.inl (acks ▸ hack)
  | completed x msg sender rest head puts acks =>
    rcases List.mem_append.mp (acks ▸ hack) with hack | hnew
    · exact Or.inl hack
    · obtain ⟨rfl, rfl⟩ := Prod.mk.inj (List.mem_singleton.mp hnew)
      exact Or.inr ⟨x, head ▸ List.mem_cons_self⟩

/-- **Every step keeps the invariant.** A put that is new has no trace yet. -/
theorem Vouched.step (hsane : Sane D codecs.replica c) (h : ∀ P ∈ c.puts, Vouched D c P)
    {a : Action ι} (hstep : c.step codecs a = some c') : ∀ P ∈ c'.puts, Vouched D c' P := by
  intro P hP
  have hmoves := moves_of_step hsane.wired hstep
  rcases taken_of_put hstep hP with hold | ⟨hnew, hown⟩
  · have hv := h P hold
    have hmono : ∀ s, ReplicaTaken D c P s → ReplicaTaken D c' P s :=
      fun s ⟨z, hz, htaken⟩ => ⟨z, hz, htaken.step hstep⟩
    refine ⟨hv.own.step hstep, fun q hq hmsg => ?_, fun s htask => ?_, fun s hack => ?_⟩
    · rcases taken_of_writeComplete hstep hq hmsg with hq | ⟨p, hp, msg, hcontent, hu, -, htaken⟩
      · exact (hv.packets q hq hmsg).step hstep
      · -- the DoWrite carries the record of the put
        have hfine := (hsane.tracked P hold).packets p hp
        rw [FinePacket, hcontent] at hfine
        exact (hfine hu).2 ▸ htaken
    · rcases packet_of_task hmoves htask with htask | ⟨p, hp, hmsg, -, hsender⟩
      · exact hmono s (hv.tasks s htask)
      · exact ⟨p.src, hsender, (hv.packets p hp hmsg).step hstep⟩
    · rcases task_of_ack hmoves hack with hack | ⟨x, htask⟩
      · exact hmono s (hv.acked s hack)
      · obtain ⟨rfl, -⟩ := (hsane.tracked P hold).tasks x _ htask rfl
        exact hmono s (hv.tasks s htask)
  · have hunseen := hsane.tidy P.uuid hnew
    refine ⟨hown, fun q hq hmsg => ?_, fun s htask => ?_, fun s hack => ?_⟩
    · rcases taken_of_writeComplete hstep hq hmsg with hq | ⟨p, hp, msg, hcontent, hu, hregular, -⟩
      · exact absurd (by rw [hmsg]; rfl) (hunseen.net q hq)
      · refine absurd ?_ (hunseen.net p hp)
        rw [hcontent, putOf, hu, if_neg hregular]
    · rcases packet_of_task hmoves htask with htask | ⟨p, hp, hmsg, -⟩
      · exact absurd rfl (hunseen.strand P.node _ htask)
      · exact absurd (by rw [hmsg]; rfl) (hunseen.net p hp)
    · rcases task_of_ack hmoves hack with hack | ⟨x, htask⟩
      · exact absurd hack (hunseen.acks s)
      · exact absurd rfl (hunseen.strand x _ htask)

end Step

/-! ## What a client may rely on -/

/-- The server holds an element of the key that is at least as new as `T`, and this is what it
answers a read of its own copy with. -/
def Finds (codecs : Coordinator.Codecs) (c : Cluster ι) (y : ι) (key : UInt32) (T : Timestamp) :
    Prop :=
  ∃ e, (c.node y).replica.store key = some e ∧ T ≤ e.timestamp ∧
    ∀ requestor get stamp uuid resp, get.key = key → get.consistency = 1 →
      .reply requestor (.getKeyResp resp)
        ∈ c.effects codecs (.client y requestor (.getKey get) stamp uuid) → resp.val = e.data

/-- What a server holds it answers with. -/
theorem finds_of_held {y : ι} {key : UInt32} {T : Timestamp} {e : Element}
    (he : (c.node y).replica.store key = some e) (hle : T ≤ e.timestamp) :
    Finds codecs c y key T := by
  refine ⟨e, he, hle, fun requestor get stamp uuid resp hkey hone hmem => ?_⟩
  rw [effects] at hmem
  cases hres : (c.node y).handle codecs (.client requestor (.getKey get) stamp uuid) with
  | none =>
    rw [hres] at hmem
    cases hmem
  | some res =>
    obtain ⟨m, es⟩ := res
    rw [hres] at hmem
    cases Coordinator.acts_of_handle hres with
    | getOwn =>
      obtain ⟨-, hresp⟩ := Effect.reply.inj (List.mem_singleton.mp hmem)
      cases ClientMessage.getKeyResp.inj hresp
      rw [Coordinator.copyOf, hkey, he]
      rfl
    | getMany _ many => exact absurd hone many
    | badRequest noGet => exact absurd rfl (noGet get)

/-- **Acknowledged puts are found.** When a PutKeyResp is handed to a client, there are as many
servers as the put asks for, its coordinator and replicas of it, that find an element at least as
new as the put in every later state in which their log does not wait for its record any more. -/
theorem acked_put_found [DecidableEq ι] (D : Deployment ι) (codecs : Coordinator.Codecs)
    (old : ι → List DoWrite) (hintFile : ι → List UInt8) {as : List (Action ι)} {c : Cluster ι}
    (hrun : exec (step codecs) (start D codecs.replica old hintFile) as = some c) {a : Action ι}
    {requestor : Client} {resp : PutKeyResp}
    (hack : .reply requestor (.putKeyResp resp) ∈ c.effects codecs a) :
    ∃ P ∈ c.puts, requestor = P.requestor ∧ resp = ⟨P.msg.stream, P.msg.key⟩ ∧
      ∃ S : Finset ι, P.msg.consistency.toNat ≤ S.card ∧
        (∀ y ∈ S, y = P.node ∨ (D.config y).address ∈ (D.config P.node).replicas) ∧
        ∀ bs c', exec (step codecs) c (a :: bs) = some c' → ∀ y ∈ S,
          ¬ (c'.node y).replica.Queued P.record → Finds codecs c' y P.msg.key P.stamp := by
  have hinv : ∀ s a s', (Sane D codecs.replica s ∧ ∀ P ∈ s.puts, Vouched D s P) →
      s.step codecs a = some s' → Sane D codecs.replica s' ∧ ∀ P ∈ s'.puts, Vouched D s' P :=
    fun s a s' hs hstep => ⟨hs.1.step hstep, Vouched.step hs.1 hs.2 hstep⟩
  obtain ⟨hsane, hvouched⟩ := exec_inv hinv ⟨sane_start D codecs.replica old hintFile, nofun⟩ hrun
  obtain ⟨x, m, es, rfl, hhandle, hreply⟩ := run_of_putKeyResp hack
  obtain ⟨-, P, hP, rfl, -, hrequestor, hresp, hcount⟩ := hsane.answers hhandle hreply
  -- the state after the step has counted the task's own WriteComplete
  obtain ⟨c₁, hstep, hputs, hacks⟩ : ∃ c₁, c.step codecs (.run P.node .write) = some c₁ ∧
      c₁.puts = c.puts ∧ c₁.acks = c.acks ++ ackedBy .write (c.node P.node).writeStrand := by
    refine ⟨{ c.advance P.node c.net (m, es) with
      acks := c.acks ++ ackedBy .write (c.node P.node).writeStrand }, ?_, rfl, rfl⟩
    rw [step, show Task.write.event = .runWrite from rfl, hhandle]
    rfl
  obtain ⟨hsane₁, hvouched₁⟩ := hinv _ _ _ ⟨hsane, hvouched⟩ hstep
  have hP₁ : P ∈ c₁.puts := hputs ▸ hP
  obtain ⟨S, hcard, hS⟩ := (hsane₁.tracked P hP₁).exists_received
  rw [← hacks] at hcount
  refine ⟨P, hP, hrequestor, hresp, S, hcount.trans hcard.ge, fun y hy => ?_,
    fun bs c' hexec y hy hnot => ?_⟩
  · rcases (hS y hy).2 with rfl | ⟨s, _, haddress⟩
    · exact Or.inl rfl
    · exact Or.inr (List.mem_of_getElem? haddress)
  · obtain ⟨c₂, hc₂, hrest⟩ := exec_cons.mp hexec
    obtain rfl := Option.some.inj (hstep.symm.trans hc₂)
    have htaken : TakenAt c₁ y P.record := by
      rcases (hS y hy).2 with rfl | ⟨s, hs, haddress⟩
      · exact (hvouched₁ P hP₁).own
      · obtain ⟨z, hz, hz'⟩ := (hvouched₁ P hP₁).acked s hs
        rw [D.distinct (Option.some.inj (haddress.symm.trans hz))]
        exact hz'
    have hlater : TakenAt c' y P.record :=
      exec_inv (P := fun s => TakenAt s y P.record) (fun s a s' h hs => h.step hs) htaken hrest
    obtain ⟨e, he, hle⟩ := hlater.resolve_left hnot
    exact finds_of_held he hle

/-- The put that is acknowledged while its record is in no log and in no store. -/
theorem acked_put_found_pair : ∃ c c' : Cluster Bool,
    exec (step twoCodecs) twoStart [twoPut] = some c ∧
    exec (step twoCodecs) c [.run false .write, .run false .log, .run false .log] = some c' ∧
    ∃ y, Finds twoCodecs c' y 5 ⟨100, 0⟩ := by
  refine ⟨_, _, rfl, rfl, ?_⟩
  obtain ⟨P, hP, -, -, S, hcard, -, hfinds⟩ := @acked_put_found Bool _ twoServers twoCodecs
    (fun _ => []) (fun _ => []) [twoPut] _ rfl (.run false .write) 0 ⟨7, 5⟩ List.mem_cons_self
  obtain rfl := List.mem_singleton.mp hP
  obtain ⟨y, hy⟩ := Finset.card_pos.mp hcard
  refine ⟨y, hfinds [.run false .log, .run false .log] _ rfl y hy ?_⟩
  cases y with
  | false => exact List.not_mem_nil
  | true => exact fun h => (by cases List.mem_singleton.mp h)

end Cluster

end Cs457.Kv
