import Cs457.Kv.Durability
import Cs457.Kv.Handoff
import Cs457.Kv.Visible

/-!
# Key-value store — no put is forgotten

A coordinator answers a put when the WriteCompletes that it asks for have been handled. What keeps
a put from being answered is only that messages are lost: when enough replicas get the DoWrite and
their WriteCompletes come back, it has been answered by the time all has settled. Messages to and
from the other replicas may be lost.

* **`counted_started`**, **`counted_completed`** — the two tasks that may answer a put.
* **`Awaiting.step`** — as long as a put is not answered, WriteCompletes are missing.
* **`delivered_put_answered`** — a put is answered when all has settled.
-/

namespace Cs457.Kv

open Transition

namespace Cluster

variable {ι : Type} {D : Deployment ι} {codecs : Coordinator.Codecs} {c c' : Cluster ι}
  {a : Action ι} {P : Put ι}

/-- The step runs a task of the put and hands its PutKeyResp to the client. -/
def Answers (codecs : Coordinator.Codecs) (c : Cluster ι) (a : Action ι) (P : Put ι) : Prop :=
  c.Serves a P ∧ .reply P.requestor (.putKeyResp ⟨P.msg.stream, P.msg.key⟩) ∈ c.effects codecs a

/-- A put that has been started has fewer WriteCompletes than it asks for. -/
def Awaiting (P : Put ι) (c : Cluster ι) : Prop :=
  P ∈ c.puts → P.uuid ∈ (c.node P.node).pendingWrites →
    counted c P.uuid + 1 < P.msg.consistency.toNat

/-- Nothing has been counted for a put that waits for its start. -/
theorem Waiting.counted_eq_zero (h : Waiting D c P) : counted c P.uuid = 0 := by
  refine List.countP_eq_zero.mpr ?_
  rintro ⟨u, s⟩ hmem hu
  obtain rfl : u = P.uuid := of_decide_eq_true hu
  have hcount := List.count_pos_iff.mpr hmem
  have hnone := h.none s
  rw [tokens] at hnone
  omega

/-- One more completion is counted for its put. -/
theorem counted_concat (u : String) (done : String × ℕ) :
    (c.acks ++ [done]).countP (fun a => a.1 = u)
      = counted c u + if done.1 = u then 1 else 0 := by
  rw [List.countP_append, List.countP_singleton, counted]
  simp

/-- The entry of a put whose last WriteComplete is still missing. -/
theorem sub_eq_one {k : UInt32} {n : ℕ} (h : k.toNat = n + 2) : k - 1 - UInt32.ofNat n = 1 := by
  have hk : k = UInt32.ofNat (n + 2) := by
    rw [← h, UInt32.ofNat_toNat]
  rw [hk, UInt32.ofNat_add, show UInt32.ofNat 2 = 1 + 1 from rfl]
  grind

/-- What a task that runs sends. -/
theorem mem_effects_run {y : ι} {task : Task} {m : Coordinator} {es : List Effect}
    (handle : (c.node y).handle codecs task.event = some (m, es)) {e : Effect} (he : e ∈ es) :
    e ∈ c.effects codecs (.run y task) := by
  rw [effects, handle]
  exact he

/-- **The start of a put** answers one that asks for no more than the coordinator. -/
theorem counted_started (hsane : Sane D codecs.replica c) (hP : P ∈ c.puts)
    (hone : 1 ≤ P.msg.consistency.toNat) (hno : ¬ c.Answers codecs (.run P.node .write) P)
    {msg : PutKey} {requestor : Client} {stamp : Timestamp} {rest : List WriteTask}
    (head : (c.node P.node).writeStrand = .start msg requestor P.uuid stamp :: rest)
    (hold : P.uuid ∉ (c.node P.node).pendingWrites) {m : Coordinator} {es : List Effect}
    (handle : (c.node P.node).handle codecs Task.write.event = some (m, es)) :
    counted c P.uuid + 1 < P.msg.consistency.toNat := by
  have htracked := hsane.tracked P hP
  have hzero := (htracked.phase.resolve_right fun hbegun => hold
    (UnorderedMap.mem_iff_exists_lookup.mpr ⟨_, hbegun.entry⟩)).counted_eq_zero
  obtain ⟨-, rfl, rfl, rfl⟩ := htracked.tasks P.node _ (head ▸ List.mem_cons_self) rfl
  have hmore : P.msg.consistency ≠ 1 := by
    intro hlast
    refine hno ⟨⟨rfl, by rw [head]; rfl⟩, mem_effects_run handle ?_⟩
    cases Coordinator.acts_of_handle handle with
    | completeWrite head' => cases head.symm.trans head'
    | startWrite head' =>
      cases head.symm.trans head'
      rw [if_pos hlast]
      exact List.mem_append_left _ List.mem_cons_self
  have hne : P.msg.consistency.toNat ≠ 1 := fun heq => hmore (UInt32.toNat_inj.mp heq)
  omega

section Step

variable [DecidableEq ι]

/-- **A WriteComplete** answers a put when it is the last one that it asks for. -/
theorem counted_completed (hsane : Sane D codecs.replica c) (hP : P ∈ c.puts)
    (hpending : P.uuid ∈ (c.node P.node).pendingWrites)
    (hlt : counted c P.uuid + 1 < P.msg.consistency.toNat) (hno : ¬ c.Answers codecs a P)
    (hstep : c.step codecs a = some c') : counted c' P.uuid + 1 < P.msg.consistency.toNat := by
  have hbegun := (hsane.tracked P hP).phase.resolve_left fun hwaiting => hwaiting.pending hpending
  cases steps_of_step hstep with
  | @run y task m es handle =>
    cases task with
    | write =>
      cases Coordinator.acts_of_handle handle with
      | startWrite head =>
        simpa only [counted, advance, head, ackedBy, List.append_nil] using hlt
      | @completeWrite msg sender rest pending head found =>
        show (c.acks ++ ackedBy .write (c.node y).writeStrand).countP _ + 1 < _
        rw [head, ackedBy, counted_concat]
        split
        · next hu =>
          -- the task is one of this put
          have hu' : msg.uuid = P.uuid := hu
          obtain ⟨rfl, -⟩ := (hsane.tracked P hP).tasks y (.complete msg sender)
            (head ▸ List.mem_cons_self) hu'
          have hentry := hbegun.entry
          rw [← hu', found] at hentry
          obtain rfl := Option.some.inj hentry
          have hmore : P.msg.consistency.toNat ≠ counted c P.uuid + 2 := by
            intro hlast
            refine hno ⟨⟨rfl, by rw [head]; exact congrArg some hu'⟩, mem_effects_run handle ?_⟩
            rw [hu', sub_eq_one hlast, if_pos rfl]
            exact List.mem_cons_self
          omega
        · exact hlt
    | _ => simpa only [counted, advance, ackedBy, List.append_nil] using hlt
  | _ => exact hlt

/-- **As long as a put is not answered**, WriteCompletes are missing. The cases are whether it has
been started before. -/
theorem Awaiting.step (h : Awaiting P c) (hsane : Sane D codecs.replica c)
    (hone : 1 ≤ P.msg.consistency.toNat) (hno : ¬ c.Answers codecs a P)
    (hstep : c.step codecs a = some c') : Awaiting P c' := by
  intro hP' hpending'
  by_cases hold : P.uuid ∈ (c.node P.node).pendingWrites
  · have hP := taken_of_pending hsane hstep hP' hold
    exact counted_completed hsane hP hold (h hP hold) hno hstep
  · obtain ⟨rfl, msg, requestor, stamp, rest, head⟩ := started_of_pending hstep hold hpending'
    obtain ⟨⟨m, es⟩, handle, rfl⟩ := Option.map_eq_some_iff.mp hstep
    have hacks : ackedBy .write (c.node P.node).writeStrand = [] := by rw [head]; rfl
    show (c.acks ++ ackedBy .write (c.node P.node).writeStrand).countP _ + 1 < _
    rw [hacks, List.append_nil]
    exact counted_started hsane hP' hone hno head hold handle

end Step

/-- Each of the replicas is counted. -/
theorem card_le_counted {I : Finset ℕ} (h : ∀ i ∈ I, (P.uuid, i) ∈ c.acks) :
    I.card ≤ counted c P.uuid := by
  have hinj : Function.Injective fun i : ℕ => (P.uuid, i) := fun i j hij => (Prod.mk.inj hij).2
  have hsub : I.map ⟨_, hinj⟩ ⊆ (c.acks.filter fun a => a.1 = P.uuid).toFinset := by
    intro a ha
    obtain ⟨i, hi, rfl⟩ := Finset.mem_map.mp ha
    exact List.mem_toFinset.mpr (List.mem_filter.mpr ⟨h i hi, decide_eq_true rfl⟩)
  calc I.card = (I.map ⟨_, hinj⟩).card := (Finset.card_map _).symm
    _ ≤ (c.acks.filter fun a => a.1 = P.uuid).toFinset.card := Finset.card_le_card hsub
    _ ≤ (c.acks.filter fun a => a.1 = P.uuid).length := List.toFinset_card_le _
    _ = counted c P.uuid := (List.countP_eq_length_filter ..).symm

/-- **No put is forgotten.** In every run that loses no message of the puts of a server to or from
as many of its replicas as a put asks for besides the server itself, the put has been answered when
all has settled. -/
theorem delivered_put_answered [DecidableEq ι] (D : Deployment ι) (codecs : Coordinator.Codecs)
    (old : ι → List DoWrite) (hintFile : ι → List UInt8) {as : List (Action ι)} {c : Cluster ι}
    (hrun : exec (step codecs) (start D codecs.replica old hintFile) as = some c) {P : Put ι}
    (hP : P ∈ c.puts) (hone : 1 ≤ P.msg.consistency.toNat) {I : Finset ℕ}
    (henough : P.msg.consistency.toNat ≤ I.card + 1)
    (hdelivers : ∀ i ∈ I,
      Along (step codecs) (Delivers D P.node i) (start D codecs.replica old hintFile) as)
    (hquiet : c.Quiet) :
    ∃ before a after t, as = before ++ a :: after ∧
      exec (step codecs) (start D codecs.replica old hintFile) before = some t ∧
      t.Answers codecs a P := by
  have hsane₀ := sane_start D codecs.replica old hintFile
  -- Suppose no step answers the put. Then its entry still awaits more than the acknowledgements
  -- that were counted.
  by_contra hnone
  have hno : Along (step codecs) (fun s a => ¬ s.Answers codecs a P)
      (start D codecs.replica old hintFile) as := by
    by_contra hnot
    obtain ⟨before, a, after, t, has, hexec, ha⟩ := exists_of_not_along hnot
    exact hnone ⟨before, a, after, t, has, hexec, not_not.mp ha⟩
  obtain ⟨hsane, hawaiting⟩ : Sane D codecs.replica c ∧ Awaiting P c :=
    exec_inv_along (P := fun s => Sane D codecs.replica s ∧ Awaiting P s)
      (fun s a s' hs hno hstep => ⟨hs.1.step hstep, hs.2.step hs.1 hone hno hstep⟩)
      ⟨hsane₀, fun h => (by cases h)⟩ hno hrun
  -- But every replica of the set has been heard: nothing of the put is on its way any more.
  have hacked : ∀ i ∈ I, (P.uuid, i) ∈ c.acks := by
    intro i hi
    have hsending : Sane D codecs.replica c ∧ Sending D P.node i c :=
      exec_inv_along (P := fun s => Sane D codecs.replica s ∧ Sending D P.node i s)
        (fun s a s' hs hd hstep => ⟨hs.1.step hstep, hs.2.step hs.1 hd hstep⟩)
        ⟨hsane₀, nofun⟩ (hdelivers i hi) hrun
    exact hsending.2.acked hsane hquiet hP
  -- Nor is the put still waiting to be started, for the strands are empty.
  rcases (hsane.tracked P hP).phase with hwaiting | hbegun
  · have hstart := hwaiting.start
    rw [(hquiet.2 P.node).writes] at hstart
    cases hstart
  · have hlt := hawaiting hP (UnorderedMap.mem_iff_exists_lookup.mpr ⟨_, hbegun.entry⟩)
    have hcard := card_le_counted hacked
    omega

/-- A put that asks for two servers; the third does not run. -/
def quorumPut : List (Action Bool) := trioOpening ++
  [.connect true 0 false, .run true (.posted 0), .deliver 0,
    .client false 0 (.putKey ⟨7, 5, "v", 2⟩) ⟨100, 0⟩ "u", .run false .log, .run false .hint,
    .run false .hint, .run false .hint, .run false .write, .deliver 0, .run true .log, .deliver 0,
    .run false .write, .run false .hint]

/-- A put with consistency 2 loses no message for one of its replicas, so it is answered. -/
theorem delivered_put_answered_trio : ∃ c P, exec (step trioCodecs) trioStart quorumPut = some c ∧
    c.puts = [P] ∧ ∃ before a after t, quorumPut = before ++ a :: after ∧
      exec (step trioCodecs) trioStart before = some t ∧ t.Answers trioCodecs a P := by
  have hend : (exec (step trioCodecs) trioStart quorumPut).any (fun c =>
      c.net = [] ∧ (c.node false).Idle ∧ (c.node true).Idle ∧
      c.puts = [⟨false, "u", ⟨7, 5, "v", 2⟩, 0, ⟨100, 0⟩⟩]) = true := by
    decide +kernel
  obtain ⟨c, hrun, hc⟩ := (Option.any_eq_true _ _).mp hend
  obtain ⟨hnet, hfirst, hsecond, hputs⟩ := of_decide_eq_true hc
  have hdelivers : Along (step trioCodecs) (Delivers trio false 0) trioStart quorumPut := by
    decide +kernel
  exact ⟨c, _, hrun, hputs, delivered_put_answered trio trioCodecs (fun _ => []) (fun _ => []) hrun
    (hputs ▸ List.mem_cons_self) (by decide) (I := {0}) (by decide)
    (fun i hi => Finset.mem_singleton.mp hi ▸ hdelivers)
    ⟨hnet, Bool.forall_bool.mpr ⟨hfirst, hsecond⟩⟩⟩

end Cluster

end Cs457.Kv
