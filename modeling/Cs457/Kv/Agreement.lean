import Cs457.Kv.Convergence
import Cs457.Kv.Handoff
import Cs457.Kv.Visible

/-!
# Key-value store — counters at zero

A coordinator in hinted-handoff mode counts for each replica and key its puts that the replica has
not acknowledged. The counters may stay above zero for long, but a counter at zero can be trusted,
whatever has been lost on the way: the replica has taken all of these puts in. So when every server
lists the others, with at most three replicas as hints are kept for no more, no log waits and the
counters of a key are zero, the servers hold the same: each of them a newest put. They hold nothing
else, as no server repairs on reads in this mode.

* **`owing_of_step`** — a step changes the number of puts that are not acknowledged as it changes
  the balance of the counter.
* **`Unrepaired.step`** — no repair is asked for.
* **`newest_of_handedOver`** — all servers hold a newest put.
-/

namespace Cs457.Kv

open Transition

/-- The messages of a read repair. -/
def ServerMessage.repairs : ServerMessage → Bool
  | .readRepair _ | .readRepairResponse _ => true
  | _ => false

namespace Coordinator

variable {codecs : Codecs} {c c' : Coordinator} {ev : Event} {es : List Effect}

/-- In the other mode a get posts no repair. -/
theorem posted_of_handle (h : c.handle codecs ev = some (c', es))
    (hmode : c.config.mode ≠ .readRepair) (hposted : ∀ key, .readRepair key ∉ c.posted)
    (key : UInt32) : .readRepair key ∉ c'.posted := by
  have hnone : ∀ k, c.repairTasks k = [] := fun k => if_neg hmode
  cases acts_of_handle h with
  | getOwn =>
    rw [hnone, List.append_nil]
    exact hposted key
  | getMany =>
    rw [hnone, List.append_nil]
    exact hposted key
  | connected =>
    intro hmem
    rcases List.mem_append.mp hmem with hmem | hmem
    · exact hposted key hmem
    · cases List.mem_singleton.mp hmem
  | repair task => exact absurd (List.mem_of_getElem? task) (hposted _)
  | reconnected task => exact fun hmem => hposted key (List.mem_of_mem_eraseIdx hmem)
  | _ => exact hposted key

/-- A message of a read repair is sent by a posted task or in answer to another. -/
theorem sends_of_handle (h : c.handle codecs ev = some (c', es))
    (hposted : ∀ key, .readRepair key ∉ c.posted)
    (hev : ∀ source msg, ev = .server source msg → msg.repairs = false) {ch : Chan}
    {msg : ServerMessage} (hsend : .send ch msg ∈ es) : msg.repairs = false := by
  -- Only a read repair and its answers send such a message, and they need a posted repair or
  -- another such message.
  cases acts_of_handle h with
  | doWrite =>
    split at hsend
    · cases hsend
    · cases List.mem_singleton.mp hsend
      rfl
  | doRead =>
    cases List.mem_singleton.mp hsend
    rfl
  | readRepair => exact absurd (hev _ _ rfl) Bool.noConfusion
  | repairNewer => exact absurd (hev _ _ rfl) Bool.noConfusion
  | repairOlder => exact absurd (hev _ _ rfl) Bool.noConfusion
  | startWrite =>
    rcases List.mem_append.mp hsend with hreply | hsend
    · split at hreply
      · cases List.mem_singleton.mp hreply
      · cases hreply
    · rw [carries_broadcast hsend]
      rfl
  | completeWrite =>
    split at hsend
    · cases List.mem_singleton.mp hsend
    · cases hsend
  | startRead =>
    rw [carries_broadcast hsend]
    rfl
  | repair task => exact absurd (List.mem_of_getElem? task) (hposted _)
  | reconnected =>
    rcases List.mem_cons.mp hsend with heq | hsend
    · cases heq
      rfl
    · unfold handoff at hsend
      split at hsend
      · obtain ⟨k, -, hk⟩ := List.mem_filterMap.mp hsend
        split at hk
        · cases hk
        · obtain ⟨e, -, heq⟩ := Option.map_eq_some_iff.mp hk
          cases heq
          rfl
      · cases hsend
  | getOwn => cases List.mem_singleton.mp hsend
  | badRequest => cases List.mem_singleton.mp hsend
  | badMessage => cases List.mem_singleton.mp hsend
  | answerRead => cases List.mem_singleton.mp hsend
  | _ => cases hsend

end Coordinator

namespace Cluster

variable {ι : Type} [DecidableEq ι] {D : Deployment ι} {codecs : Coordinator.Codecs}
  {c c' : Cluster ι} {a : Action ι} {x : ι} {i : ℕ} {k : UInt32}

/-! ## Counters and puts -/

/-- What an action adds to the balance at `x`. -/
def owes (c : Cluster ι) (x : ι) (i : ℕ) (k : UInt32) (a : Action ι) : ℤ :=
  match c.event a with
  | some (y, ev) => if y = x then (c.node y).owes i k ev else 0
  | none => 0

/-- An event changes the balance of the server that handles it, and of no other. -/
theorem owes_of_event {y : ι} {ev : Coordinator.Event} (hev : c.event a = some (y, ev)) :
    c.owes x i k a = if y = x then (c.node y).owes i k ev else 0 := by
  rw [owes, hev]

/-- A step changes the balance by what its event owes. -/
theorem balance_of_step (hmode : (c.node x).config.mode = .hintedHandoff)
    (hi : i < Coordinator.hintsSize) (hfresh : (c.node x).Fresh)
    (hstep : c.step codecs a = some c') :
    (c'.node x).balance i k = (c.node x).balance i k + c.owes x i k a := by
  rcases event_of_step hstep with ⟨hnone, hnode, -⟩ | ⟨y, ev, m, es, hev, hhandle, hnode, -⟩
  · rw [hnode, owes, hnone, add_zero]
  · rw [hnode, Function.update_apply, owes_of_event hev]
    by_cases hyx : y = x
    · subst hyx
      rw [if_pos rfl, if_pos rfl]
      exact Coordinator.balance_of_handle hhandle hmode hfresh hi k
    · rw [if_neg (Ne.symm hyx), if_neg hyx, add_zero]

/-- **The puts that are not acknowledged** change with the balance: a put adds one to each, and
the WriteComplete that is counted for a put takes one from each. -/
theorem owing_of_step (hsane : Sane D codecs.replica c)
    (huuids : c.puts.Pairwise fun P Q => P.uuid ≠ Q.uuid) (hstep : c.step codecs a = some c') :
    (c'.puts.countP (owing x i k c'.acks) : ℤ)
      = c.puts.countP (owing x i k c.acks) + c.owes x i k a := by
  -- The debt grows when `x` takes a put and shrinks when it counts the WriteComplete of `i`; no
  -- other step counts.
  cases steps_of_step hstep with
  | @client y requestor msg stamp uuid m es unused handle =>
    rw [owes_of_event rfl]
    cases msg with
    | putKey msg =>
      show ((c.puts ++ [_]).countP (owing x i k c.acks) : ℤ) = _
      rw [countP_owing_put ((hsane.tidy uuid unused.2).acks i)]
      by_cases hyx : y = x <;> simp [hyx, Coordinator.owes]
    | _ => simp [takenBy, Coordinator.owes, advance]
  | lose bound => exact (add_zero _).symm
  | connect replica handle =>
    rw [owes_of_event rfl]
    simp [Coordinator.owes, advance]
  | @deliver n p m es get next handle =>
    have hev : c.event (.deliver n) = some (p.dst, .server p.chan p.msg) := by rw [event, get]; rfl
    rw [owes_of_event hev]
    simp [Coordinator.owes, advance]
  | @run y task m es handle =>
    rw [owes_of_event rfl]
    cases task with
    | write =>
      cases Coordinator.acts_of_handle handle with
      | startWrite head => simp [Coordinator.owes, Task.event, head, ackedBy, advance]
      | @completeWrite msg sender rest pending head found =>
        obtain ⟨P, hP, hu, hnode, hkey, hacked⟩ := put_of_complete hsane head found
        simp only [Coordinator.owes, Task.event, head, found, ackedBy, advance]
        rw [countP_owing huuids hP sender c.acks, ← hu]
        push_cast
        -- The acknowledgement counts when it is the coordinator `x` that hears it, of the replica
        -- `i`.
        by_cases hyx : y = x
        · by_cases his : i = sender
          · subst his
            simp only [owing, hnode, hyx, hkey, hacked, true_and, not_false_eq_true, and_true,
              decide_eq_true_eq, if_true, @eq_comm _ k P.msg.key]
            split <;> ring
          · simp [his, hyx]
        · have hno : owing x i k c.acks P = false := by simp [owing, hnode, hyx]
          simp [hno, hyx]
    | _ => simp [Coordinator.owes, Task.event, ackedBy, advance]

/-- **The invariant of a counter.** -/
structure Counted (x : ι) (i : ℕ) (k : UInt32) (c : Cluster ι) : Prop where
  fresh : (c.node x).Fresh
  uuids : c.puts.Pairwise fun P Q => P.uuid ≠ Q.uuid
  balance : (c.node x).balance i k = (c.puts.countP (owing x i k c.acks) : ℤ)

/-- At the start nothing is put and nothing is counted. -/
theorem counted_start {codec : Codec DoWrite}
    (hmode : (D.config x).mode = .hintedHandoff) (old : ι → List DoWrite) :
    Counted x i k (start D codec old fun _ => []) where
  fresh := (owed_start hmode old (i := i) (k := k)).fresh
  uuids := .nil
  balance := (owed_start hmode old).balance

/-- The balance of the counter is the number of puts that are not acknowledged, after every step. -/
theorem Counted.step (hsane : Sane D codecs.replica c) (h : Counted x i k c)
    (hmode : (D.config x).mode = .hintedHandoff) (hi : i < Coordinator.hintsSize)
    (hstep : c.step codecs a = some c') : Counted x i k c' := by
  refine ⟨?_, ?_, ?_⟩
  · -- The three parts of the count: the stamps stay fresh, the uuids stay apart, the books balance.
    rcases event_of_step hstep with ⟨-, hnode, -⟩ | ⟨y, ev, m, es, -, hhandle, hnode, -⟩
    · rw [hnode]
      exact h.fresh
    · rw [hnode, Function.update_apply]
      split
      · next heq =>
        subst heq
        exact h.fresh.handle hhandle
      · exact h.fresh
  · cases steps_of_step hstep with
    | @client y requestor msg stamp uuid m es unused handle =>
      refine List.pairwise_append.mpr ⟨h.uuids, ?_, fun P hP Q hQ => ?_⟩
      · cases msg with
        | putKey msg => exact List.pairwise_singleton _ _
        | _ => exact .nil
      · cases msg with
        | putKey msg =>
          rw [List.mem_singleton.mp hQ]
          exact unused.2 P hP
        | _ => cases hQ
    | _ => exact h.uuids
  · rw [balance_of_step (hsane.wired.config x ▸ hmode) hi h.fresh hstep, h.balance,
      owing_of_step hsane h.uuids hstep]

/-- **A counter at zero**: the replica has taken in all puts of the coordinator on the key. -/
theorem Counted.taken (h : Counted x i k c) (hvouched : ∀ P ∈ c.puts, Vouched D c P)
    (hstrand : (c.node x).hintStrand = []) (hzero : (c.node x).hints i k = 0) {P : Put ι}
    (hP : P ∈ c.puts) (hx : P.node = x) (hkey : P.msg.key = k) : ReplicaTaken D c P i := by
  have hbalance := h.balance
  rw [Coordinator.balance, hzero, hstrand] at hbalance
  have hnone : c.puts.countP (owing x i k c.acks) = 0 := by
    have hcast : ((c.puts.countP (owing x i k c.acks) : ℕ) : ℤ) = 0 := hbalance.symm
    exact_mod_cast hcast
  have hnot := List.countP_eq_zero.mp hnone P hP
  refine (hvouched P hP).acked i ?_
  by_contra hacked
  exact hnot (decide_eq_true ⟨hx, hkey, hacked⟩)

/-! ## No read repairs -/

/-- **No repair is asked for**: none is posted, and no message of one is on its way. -/
structure Unrepaired (c : Cluster ι) : Prop where
  posted : ∀ x key, .readRepair key ∉ (c.node x).posted
  net : ∀ p ∈ c.net, p.msg.repairs = false

/-- A server that does not repair on reads asks for no repair. -/
theorem Unrepaired.step (h : Unrepaired c) (hmode : ∀ x, (c.node x).config.mode ≠ .readRepair)
    (hstep : c.step codecs a = some c') : Unrepaired c' := by
  rcases event_of_step hstep with ⟨-, hnode, -, hnet⟩ | ⟨x, ev, m, es, hev, hhandle, hnode, -, hnet⟩
  · exact ⟨hnode ▸ h.posted, fun p hp => h.net p (hnet hp)⟩
  · have hquiet : ∀ source msg, ev = .server source msg → msg.repairs = false := by
      rintro source msg rfl
      obtain ⟨p, hp, -, -, rfl⟩ := mem_net_of_event hev
      exact h.net p hp
    refine ⟨forall_node_of_update (P := fun _ n => ∀ key, .readRepair key ∉ n.posted) hnode
      (Coordinator.posted_of_handle hhandle (hmode x) (h.posted x)) h.posted, fun p hp => ?_⟩
    rcases hnet p hp with hold | ⟨e, he, hpacket⟩
    · exact h.net p hold
    · obtain ⟨ch, rfl, -⟩ := packet_eq_some hpacket
      exact Coordinator.sends_of_handle hhandle (h.posted x) hquiet he

omit [DecidableEq ι] in
/-- Nothing is written in answer to a repair. -/
theorem Unrepaired.genuine (h : Unrepaired c) (old : ι → List DoWrite) (a : Action ι) :
    Genuine old c a := by
  intro k hrepaired
  unfold repaired at hrepaired
  split at hrepaired
  · next x source msg hev =>
    obtain ⟨p, hp, -, -, hmsg⟩ := mem_net_of_event hev
    have hnone := h.net p hp
    rw [hmsg] at hnone
    cases hnone
  · cases hrepaired

/-! ## All servers -/

/-- Nothing on the key waits in a log, and no server counts a hint for another. -/
structure HandedOver (D : Deployment ι) (c : Cluster ι) (k : UInt32) : Prop where
  logs : ∀ x, (c.node x).replica.strand = []
  hintLogs : ∀ x, (c.node x).hintStrand = []
  counters : ∀ x y i, (D.config x).replicas[i]? = some (D.config y).address →
    (c.node x).hints i k = 0

/-- What a store holds for the key is a put, and none is newer. -/
def Newest (c : Cluster ι) (k : UInt32) : Option Element → Prop
  | none => ∀ P ∈ c.puts, P.msg.key ≠ k
  | some e => (∃ P ∈ c.puts, P.msg.key = k ∧ e = ⟨P.msg.val, P.stamp⟩) ∧
    ∀ P ∈ c.puts, P.msg.key = k → P.stamp ≤ e.timestamp

/-- The invariants of a cluster in hinted-handoff mode. -/
structure Handing (D : Deployment ι) (codec : Codec DoWrite) (k : UInt32) (c : Cluster ι) :
    Prop where
  sane : Sane D codec c
  vouched : ∀ P ∈ c.puts, Vouched D c P
  counted : ∀ x, ∀ i < Coordinator.hintsSize, Counted x i k c
  unrepaired : Unrepaired c
  sourced : Sourced codec (fun _ => []) c

/-- Servers with empty logs satisfy the invariant. -/
theorem handing_start (D : Deployment ι) (codec : Codec DoWrite)
    (hmode : ∀ x, (D.config x).mode = .hintedHandoff) (k : UInt32) :
    Handing D codec k (start D codec (fun _ => []) fun _ => []) where
  sane := sane_start D codec (fun _ => []) fun _ => []
  vouched := nofun
  counted x _ _ := counted_start (hmode x) fun _ => []
  unrepaired := ⟨fun _ _ => List.not_mem_nil, nofun⟩
  sourced := sourced_start D (fun _ _ hm => (by cases hm)) fun _ => []

/-- Every step keeps it, part by part. -/
theorem Handing.step (h : Handing D codecs.replica k c)
    (hmode : ∀ x, (D.config x).mode = .hintedHandoff) (hstep : c.step codecs a = some c') :
    Handing D codecs.replica k c' where
  sane := h.sane.step hstep
  vouched := Vouched.step h.sane h.vouched hstep
  counted x i hi := (h.counted x i hi).step h.sane (hmode x) hi hstep
  unrepaired := by
    refine h.unrepaired.step (fun x => ?_) hstep
    rw [h.sane.wired.config, hmode]
    exact Mode.noConfusion
  sourced := h.sourced.step (h.unrepaired.genuine _ a) hstep

/-- **Every server has every put**, when its record does not wait any more. -/
theorem Handing.covers {codec : Codec DoWrite} (h : Handing D codec k c)
    (hslots : ∀ x, (D.config x).replicas.length ≤ Coordinator.hintsSize)
    (hpeers : ∀ x y, x ≠ y → (D.config y).address ∈ (D.config x).replicas)
    (hover : HandedOver D c k) {P : Put ι} (hP : P ∈ c.puts) (hkey : P.msg.key = k) (y : ι) :
    storeRegister.Covers (c.node y).replica.store P.record := by
  have htaken : TakenAt c y P.record := by
    by_cases hy : P.node = y
    · exact hy ▸ (h.vouched P hP).own
    · obtain ⟨i, hlt, haddress⟩ := List.getElem_of_mem (hpeers P.node y hy)
      have hreplica := List.getElem?_eq_some_iff.mpr ⟨hlt, haddress⟩
      obtain ⟨z, hz, htaken⟩ := (h.counted P.node i (hlt.trans_le (hslots _))).taken h.vouched
        (hover.hintLogs _) (hover.counters _ y i hreplica) hP rfl hkey
      -- an address is that of one server
      rw [D.distinct (Option.some.inj (hreplica.symm.trans hz))]
      exact htaken
  refine htaken.resolve_left fun hqueued => ?_
  rw [Replica.Queued, hover.logs y] at hqueued
  cases hqueued

/-- **Counters at zero mean that all agree.** Servers in hinted-handoff mode, each of which lists
the others and at most three replicas in all, are started on empty logs: hints are kept for the
first three replicas only. Whatever is put, lost and sent again, in every state in
which no log waits and no server counts a hint of the key for another, each server holds a newest
put of the key, or nothing when there is none. -/
theorem newest_of_handedOver (D : Deployment ι) (codecs : Coordinator.Codecs)
    (hmode : ∀ x, (D.config x).mode = .hintedHandoff)
    (hslots : ∀ x, (D.config x).replicas.length ≤ Coordinator.hintsSize)
    (hpeers : ∀ x y, x ≠ y → (D.config y).address ∈ (D.config x).replicas)
    {as : List (Action ι)} {c : Cluster ι}
    (hrun : exec (step codecs) (start D codecs.replica (fun _ => []) fun _ => []) as = some c)
    {k : UInt32} (hover : HandedOver D c k) (y : ι) :
    Newest c k ((c.node y).replica.store k) := by
  have hinv : Handing D codecs.replica k c :=
    exec_inv (P := Handing D codecs.replica k) (fun s a s' hs hstep => hs.step hmode hstep)
      (handing_start D codecs.replica hmode k) hrun
  have hcovers : ∀ P ∈ c.puts, P.msg.key = k → ∃ e, (c.node y).replica.store k = some e ∧
      P.stamp ≤ e.timestamp := by
    rintro P hP rfl
    exact hinv.covers hslots hpeers hover hP rfl y
  cases hheld : (c.node y).replica.store k with
  | none =>
    intro P hP hkey
    obtain ⟨e, he, -⟩ := hcovers P hP hkey
    rw [hheld] at he
    cases he
  | some e =>
    refine ⟨?_, fun P hP hkey => ?_⟩
    · rcases (hinv.sourced.stocked y).replica.store k e hheld with hput | ⟨x, m, hm, -⟩
      · exact hput
      · cases hm
    · obtain ⟨e', he', hle⟩ := hcovers P hP hkey
      obtain rfl := Option.some.inj (hheld.symm.trans he')
      exact hle

/-- The acknowledged put, which both servers hold. -/
theorem newest_of_handedOver_trio :
    ∃ c, exec (step trioCodecs) trioStart acknowledgedPut = some c ∧
      ∀ y, Newest c 5 ((c.node y).replica.store 5) := by
  have hend : (exec (step trioCodecs) trioStart acknowledgedPut).any (fun c =>
      ((c.node false).replica.strand = [] ∧ (c.node true).replica.strand = []) ∧
      ((c.node false).hintStrand = [] ∧ (c.node true).hintStrand = []) ∧
      (c.node false).hints 0 5 = 0 ∧ (c.node true).hints 0 5 = 0) = true := by
    decide +kernel
  obtain ⟨c, hrun, hc⟩ := (Option.any_eq_true _ _).mp hend
  obtain ⟨hlogs, hhintLogs, hcounters⟩ := of_decide_eq_true hc
  refine ⟨c, hrun, fun y => ?_⟩
  refine newest_of_handedOver trio trioCodecs (Bool.forall_bool.mpr ⟨rfl, rfl⟩)
    (Bool.forall_bool.mpr ⟨by decide, by decide⟩) (by decide) hrun
    ⟨Bool.forall_bool.mpr hlogs, Bool.forall_bool.mpr hhintLogs, fun x y i hreplica => ?_⟩ y
  -- the other server is the first replica
  have hfirst : (trio.config x).replicas[0]? = some (trio.config !x).address := by
    cases x <;> rfl
  have hy : y = !x := by
    cases x <;> cases y
    · exact absurd (List.mem_of_getElem? hreplica) (trio.others false)
    · rfl
    · rfl
    · exact absurd (List.mem_of_getElem? hreplica) (trio.others true)
  rw [hy] at hreplica
  rw [trio.index_unique hreplica hfirst]
  cases x with
  | false => exact hcounters.1
  | true => exact hcounters.2

end Cluster

end Cs457.Kv
