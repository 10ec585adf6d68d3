import Cs457.Kv.HintCodec
import Cs457.Kv.Recovery
import Cs457.Kv.Visible
import Mathlib.Algebra.BigOperators.Group.List.Basic
import Mathlib.Data.List.Count

/-!
# Key-value store — retiring hints

A hint is dropped when the WriteComplete of its put has been handled. The reconnect handler
sends the hinted keys as repairs, which are not acknowledged, so a put whose DoWrite or
WriteComplete was lost keeps its hint although the replica has caught up.

* **`balance`** — a counter with the changes that wait in the strand of the hint log.
* **`Owed`** — the invariant: the balance is the number of the coordinator's puts that the
  replica has not acknowledged.
* **`Delivers`** — the step loses no message of a put to or from the replica.
* **`Sending.step`** — then nothing of a put gets lost between the two.
* **`hints_retired`** — when no such message is lost, a hint is gone when all has settled.
-/

namespace Cs457.Kv

open Transition

namespace Coordinator

/-! ## The balance of a counter -/

/-- What a task will change. -/
def HintTask.weight (i : ℕ) (k : UInt32) : HintTask → ℤ
  | .update _ replica key change => if i = replica ∧ k = key then change else 0
  | .replay => 0

def balance (c : Coordinator) (i : ℕ) (k : UInt32) : ℤ :=
  c.hints i k + (c.hintStrand.map (HintTask.weight i k)).sum

/-- The hint log was empty at the start: a replay that has not run finds it so. -/
def Fresh (c : Coordinator) : Prop :=
  .replay ∉ c.hintStrand ∨
    ∃ rest, c.hintStrand = .replay :: rest ∧ .replay ∉ rest ∧ c.hintFile = []

/-- What an event adds to the balance. -/
def owes (c : Coordinator) (i : ℕ) (k : UInt32) : Event → ℤ
  | .client _ (.putKey msg) _ _ => if k = msg.key then 1 else 0
  | .runWrite => match c.writeStrand with
    | .complete msg sender :: _ => match c.pendingWrites.lookup msg.uuid with
      | some pending => if i = sender ∧ k = pending.key then -1 else 0
      | none => 0
    | _ => 0
  | _ => 0

/-- A put adds one to the counter of its key for each of the three replicas that are counted. -/
theorem weight_hintAdds {c : Coordinator} (hmode : c.config.mode = .hintedHandoff) {i : ℕ}
    (hi : i < hintsSize) (k key : UInt32) :
    ((c.hintAdds key).map (HintTask.weight i k)).sum = if k = key then 1 else 0 := by
  rw [hintAdds, if_pos hmode, List.map_map]
  have hweight : (List.range hintsSize).map (HintTask.weight i k ∘ fun j =>
      HintTask.update (.addHint (UInt32.ofNat j) key) j key 1) =
      (List.range hintsSize).map fun j => if i = j ∧ k = key then (1 : ℤ) else 0 := rfl
  rw [hweight]
  by_cases hk : k = key
  · simp only [hk, and_true, if_true]
    have hcases : i = 0 ∨ i = 1 ∨ i = 2 := by
      unfold hintsSize at hi
      omega
    rcases hcases with rfl | rfl | rfl <;> rfl
  · simp [hk]

/-- A completion takes one off that of its sender. -/
theorem weight_hintDrops {c : Coordinator} (hmode : c.config.mode = .hintedHandoff) (i sender : ℕ)
    (k key : UInt32) : ((c.hintDrops sender key).map (HintTask.weight i k)).sum =
      if i = sender ∧ k = key then -1 else 0 := by
  rw [hintDrops, if_pos hmode]
  simp [HintTask.weight]

/-- **The balance changes with a put and with a completion only.** A task of the hint log makes
the change that it stood for. -/
theorem balance_of_handle {codecs : Codecs} {c c' : Coordinator} {ev : Event} {es : List Effect}
    (h : c.handle codecs ev = some (c', es)) (hmode : c.config.mode = .hintedHandoff)
    (hfresh : c.Fresh) {i : ℕ} (hi : i < hintsSize) (k : UInt32) :
    c'.balance i k = c.balance i k + c.owes i k ev := by
  cases acts_of_handle h with
  | @put requestor msg stamp uuid replica write =>
    simp only [balance, owes, List.map_append, List.sum_append, weight_hintAdds hmode hi]
    ring
  | @completeWrite msg sender rest pending head found =>
    simp only [balance, owes, head, found, List.map_append, List.sum_append,
      weight_hintDrops hmode]
    ring
  | startWrite head =>
    simp only [balance, owes, head]
    ring
  | @runHint t rest hints hintFile head perform =>
    rw [show c.owes i k .runHint = 0 from rfl, add_zero]
    cases t with
    | replay =>
      -- a fresh server has an empty hint log to replay
      rcases hfresh with hnone | ⟨_, _, _, hfile⟩
      · rw [head] at hnone
        exact absurd List.mem_cons_self hnone
      · simp only [performHint, hfile] at perform
        have heq := Except.ok.inj perform
        have hhints : c.hints = hints := congrArg Coordinator.hints heq
        simp [balance, head, ← hhints, HintTask.weight]
    | update msg replica key change =>
      simp only [performHint, addHints] at perform
      split at perform
      · have heq := Except.ok.inj perform
        have hhints : (fun j k' => if j = replica ∧ k' = key then c.hints j k' + change
            else c.hints j k') = hints := congrArg Coordinator.hints heq
        simp only [balance, head, ← hhints, List.map_cons, List.sum_cons, HintTask.weight]
        split <;> ring
      · cases perform
  | @badRequest requestor msg stamp uuid text noGet noPut =>
    have hnone : c.owes i k (.client requestor msg stamp uuid) = 0 := by
      cases msg with
      | putKey m => exact absurd rfl (noPut m)
      | _ => rfl
    rw [hnone, add_zero]
  | _ => exact (add_zero _).symm

/-- No record is written to the hint log before its replay has run. -/
theorem Fresh.handle {codecs : Codecs} {c c' : Coordinator} {ev : Event} {es : List Effect}
    (hfresh : c.Fresh) (h : c.handle codecs ev = some (c', es)) : c'.Fresh := by
  -- what is handed to the log is not a replay
  have happend : ∀ {c' : Coordinator} {ts : List HintTask}, c'.hintStrand = c.hintStrand ++ ts →
      .replay ∉ ts → c'.hintFile = c.hintFile → c'.Fresh := by
    intro c' ts hstrand hts hfile
    rcases hfresh with hnone | ⟨rest, hreplay, hrest, hempty⟩
    · left
      rw [hstrand, List.mem_append]
      exact fun hmem => hmem.elim hnone hts
    · right
      refine ⟨rest ++ ts, by rw [hstrand, hreplay, List.cons_append], ?_, hfile.trans hempty⟩
      rw [List.mem_append]
      exact fun hmem => hmem.elim hrest hts
  cases acts_of_handle h with
  | @put _ msg =>
    refine happend rfl ?_ rfl
    unfold hintAdds
    split
    · intro hmem
      obtain ⟨j, _, heq⟩ := List.mem_map.mp hmem
      cases heq
    · exact List.not_mem_nil
  | completeWrite =>
    refine happend rfl ?_ rfl
    unfold hintDrops
    split
    · intro hmem
      cases List.mem_singleton.mp hmem
    · exact List.not_mem_nil
  | @runHint t rest hints hintFile head perform =>
    left
    show .replay ∉ rest
    rcases hfresh with hnone | ⟨rest', hreplay, hrest, _⟩
    · rw [head] at hnone
      exact fun hmem => hnone (List.mem_cons_of_mem t hmem)
    · obtain ⟨_, rfl⟩ := List.cons_eq_cons.mp (head.symm.trans hreplay)
      exact hrest
  | _ => exact hfresh

end Coordinator

namespace Cluster

variable {ι : Type} [DecidableEq ι] {D : Deployment ι} {codecs : Coordinator.Codecs}
  {c c' : Cluster ι} {x : ι} {i : ℕ} {k : UInt32}

/-! ## Messages that arrive -/

/-- A message of a put of `x` to or from its `i`-th replica. -/
def Concerns (D : Deployment ι) (x : ι) (i : ℕ) (c : Cluster ι) (p : Packet ι) : Prop :=
  ∃ P ∈ c.puts, P.node = x ∧ carries D P i p = true

instance (c : Cluster ι) (p : Packet ι) : Decidable (Concerns D x i c p) :=
  inferInstanceAs (Decidable (∃ P ∈ c.puts, _))

def isDoWrite : ServerMessage → Bool
  | .doWrite _ => true
  | _ => false

/-- The next task of the strand starts a put. -/
def startsPut : List WriteTask → Bool
  | .start _ _ _ _ :: _ => true
  | _ => false

/-- The step loses no message of a put of `x` to or from its `i`-th replica: neither on the way
nor because its channel has no connection when it is sent. -/
def Delivers (D : Deployment ι) (x : ι) (i : ℕ) (c : Cluster ι) : Action ι → Prop
  | .lose n => ∀ p ∈ c.net[n]?, ¬ Concerns D x i c p
  | .deliver n => ∀ p ∈ c.net[n]?, isDoWrite p.msg = true → Concerns D x i c p →
      ∀ id ∈ (c.node p.dst).idOf p.chan, c.wire p.dst id ≠ none
  | .run y .write => y = x → startsPut (c.node x).writeStrand = true → c.wire x i ≠ none
  | _ => True

instance Delivers.decidable (c : Cluster ι) : ∀ a, Decidable (Delivers D x i c a)
  | .lose n => inferInstanceAs (Decidable (∀ p ∈ c.net[n]?, _))
  | .deliver n => inferInstanceAs (Decidable (∀ p ∈ c.net[n]?, _))
  | .run y .write => inferInstanceAs (Decidable (y = x → _))
  | .run _ .log | .run _ .hint | .run _ (.read _) | .run _ (.posted _) => isTrue trivial
  | .client _ _ _ _ _ | .connect _ _ _ => isTrue trivial

/-- Only `runWrite` takes a task from the strand of the writes. -/
theorem writeStrand_grows {m m' : Coordinator} {ev : Coordinator.Event} {es : List Effect}
    (h : m.handle codecs ev = some (m', es)) (hev : ev ≠ .runWrite) :
    ∃ ts, m'.writeStrand = m.writeStrand ++ ts := by
  cases Coordinator.acts_of_handle h with
  | put => exact ⟨_, rfl⟩
  | writeComplete => exact ⟨_, rfl⟩
  | startWrite | completeWrite => exact absurd rfl hev
  | _ => exact ⟨[], (List.append_nil _).symm⟩

/-- Only its own tasks take a task off the write strand. -/
theorem countP_grows {y : ι} {m' : Coordinator} {ev : Coordinator.Event} {es : List Effect}
    (h : (c.node y).handle codecs ev = some (m', es)) (hev : ev ≠ .runWrite)
    (f : WriteTask → Bool) (z : ι) : (c.node z).writeStrand.countP f ≤
      (Function.update c.node y m' z).writeStrand.countP f := by
  rw [Function.update_apply]
  split
  · next heq =>
    obtain ⟨ts, hts⟩ := writeStrand_grows h hev
    rw [hts, heq, List.countP_append]
    exact Nat.le_add_right _ _
  · exact Nat.le_refl _

omit [DecidableEq ι] in
/-- A packet that is taken counts one less. -/
theorem countP_eraseIdx {n : ℕ} {p : Packet ι} (hp : c.net[n]? = some p) (f : Packet ι → Bool) :
    c.net.countP f = (c.net.eraseIdx n).countP f + if f p = true then 1 else 0 := by
  obtain ⟨hlt, rfl⟩ := List.getElem?_eq_some_iff.mp hp
  rw [← (List.getElem_cons_eraseIdx_perm hlt).countP_eq f, List.countP_cons]

/-- A DoWrite of the put is answered. -/
theorem tokens_doWrite {P : Put ι} (hregular : P.uuid ≠ "RR") {n : ℕ} {p : Packet ι}
    (hp : c.net[n]? = some p) {msg : DoWrite} (hmsg : p.msg = .doWrite msg)
    (hcarries : carries D P i p = true) {m : Coordinator} {es : List Effect}
    (hhandle : (c.node p.dst).handle codecs (.server p.chan p.msg) = some (m, es))
    (hwire : ∀ id, (c.node p.dst).idOf p.chan = some id → c.wire p.dst id ≠ none) :
    tokens D c P i ≤ tokens D (c.advance p.dst (c.net.eraseIdx n) (m, es)) P i := by
  have hstrand := countP_grows hhandle nofun (completes P i) P.node
  have hnet := countP_eraseIdx hp (carries D P i)
  rw [if_pos hcarries] at hnet
  have hreply : 1 ≤ (es.filterMap (c.packet p.dst)).countP (carries D P i) := by
    rw [hmsg] at hhandle
    generalize hchan : p.chan = source at hhandle
    simp only [carries, hmsg, decide_eq_true_eq] at hcarries
    cases Coordinator.acts_of_handle hhandle with
    | @doWrite _ _ id _ sender write =>
      have hsome := hwire id (hchan ▸ sender)
      obtain ⟨⟨z, k⟩, hz⟩ := Option.ne_none_iff_exists'.mp hsome
      rw [if_neg (hcarries.1 ▸ hregular)]
      simp only [List.filterMap_cons, packet, hz, Option.map_some, List.filterMap_nil,
        List.countP_cons, List.countP_nil, carries, hcarries, and_self, decide_true, if_true]
      exact Nat.le_refl 1
  simp only [tokens, advance, List.countP_append]
  omega

/-- A WriteComplete of the put goes to the strand. -/
theorem tokens_writeComplete (hwired : Wired D c) {P : Put ι} {n : ℕ} {p : Packet ι}
    (hp : c.net[n]? = some p) {msg : WriteComplete} (hmsg : p.msg = .writeComplete msg)
    (hcarries : carries D P i p = true) (hdst : p.dst = P.node) {m : Coordinator}
    {es : List Effect}
    (hhandle : (c.node p.dst).handle codecs (.server p.chan p.msg) = some (m, es)) :
    tokens D c P i ≤ tokens D (c.advance p.dst (c.net.eraseIdx n) (m, es)) P i := by
  have hnet := countP_eraseIdx hp (carries D P i)
  rw [if_pos hcarries] at hnet
  -- A channel leads to one server, so the sender of the WriteComplete is the replica `i`.
  have hsender : ∀ {id}, (c.node p.dst).idOf p.chan = some id → id = i := by
    intro id hid
    have hid' := hwired.sender (List.mem_of_getElem? hp) hid
    simp only [carries, hmsg, decide_eq_true_eq] at hcarries
    rw [← hdst] at hcarries
    exact D.index_unique hid' hcarries.2
  -- The WriteComplete leaves the network and its task enters the write strand.
  have hstrand : (c.node P.node).writeStrand.countP (completes P i) + 1 ≤
      (Function.update c.node p.dst m P.node).writeStrand.countP (completes P i) := by
    rw [hdst, Function.update_self]
    rw [hmsg] at hhandle
    generalize hchan : p.chan = source at hhandle
    simp only [carries, hmsg, decide_eq_true_eq] at hcarries
    cases Coordinator.acts_of_handle hhandle with
    | @writeComplete _ _ id sender =>
      obtain rfl := hsender (hchan ▸ sender)
      rw [List.countP_append, hdst]
      simp [completes, hcarries.1]
  simp only [tokens, advance, List.countP_append]
  omega

/-- A task of the strand of the writes: what it takes from the strand it adds to the
completions. -/
theorem tokens_runWrite {P : Put ι} {y : ι} {m : Coordinator} {es : List Effect}
    (hhandle : (c.node y).handle codecs .runWrite = some (m, es)) :
    tokens D c P i ≤ tokens D { c.advance y c.net (m, es) with
      acks := c.acks ++ ackedBy .write (c.node y).writeStrand } P i := by
  have hstrand : (c.node P.node).writeStrand.countP (completes P i) + c.acks.count (P.uuid, i) ≤
      (Function.update c.node y m P.node).writeStrand.countP (completes P i) +
        (c.acks ++ ackedBy .write (c.node y).writeStrand).count (P.uuid, i) := by
    rw [Function.update_apply, List.count_append]
    cases Coordinator.acts_of_handle hhandle with
    | @startWrite msg requestor uuid stamp rest head =>
      split
      · next heq => simp [heq, head, completes, ackedBy]
      · omega
    | @completeWrite msg sender rest pending head found =>
      split
      · next heq =>
        rw [heq, head, List.countP_cons]
        simp only [completes, ackedBy, List.count_singleton, decide_eq_true_eq, beq_iff_eq,
          Prod.mk.injEq]
        omega
      · omega
  simp only [tokens, advance, List.countP_append]
  omega

/-- **No token of a put is lost**, when the step loses no message of its. -/
theorem tokens_mono (hsane : Sane D codecs.replica c) {a : Action ι}
    (hstep : c.step codecs a = some c') (hdelivers : Delivers D x i c a) {P : Put ι}
    (hP : P ∈ c.puts) (hx : P.node = x) : tokens D c P i ≤ tokens D c' P i := by
  have htracked := hsane.tracked P hP
  -- a step of a server that is not a delivery and not a task of the strand of the writes
  have hadvance : ∀ {y : ι} {ev : Coordinator.Event} {m : Coordinator} {es : List Effect},
      (c.node y).handle codecs ev = some (m, es) → ev ≠ .runWrite →
      tokens D c P i ≤ tokens D (c.advance y c.net (m, es)) P i := by
    intro y ev m es hhandle hev
    have hstrand := countP_grows hhandle hev (completes P i) P.node
    simp only [tokens, advance, List.countP_append]
    omega
  cases steps_of_step hstep with
  | client unused handle => exact hadvance handle fun hev => by cases hev
  | connect replica handle => exact hadvance handle fun hev => by cases hev
  | @lose n bound =>
    have hget : c.net[n]? = some c.net[n] := List.getElem?_eq_getElem bound
    have hnet := countP_eraseIdx hget (carries D P i)
    rw [if_neg fun hcarries => hdelivers _ hget ⟨P, hP, hx, hcarries⟩] at hnet
    simp only [tokens]
    omega
  | @deliver n p m es hp next hhandle =>
    by_cases hcarries : carries D P i p = true
    · have hfine := htracked.packets p (List.mem_of_getElem? hp)
      cases hmsg : p.msg with
      | doWrite msg =>
        refine tokens_doWrite htracked.regular hp hmsg hcarries hhandle fun id hid => ?_
        exact hdelivers p hp (by rw [hmsg]; rfl) ⟨P, hP, hx, hcarries⟩ id hid
      | writeComplete msg =>
        rw [FinePacket, hmsg] at hfine
        have huuid : msg.uuid = P.uuid := by
          simp only [carries, hmsg, decide_eq_true_eq] at hcarries
          exact hcarries.1
        exact tokens_writeComplete hsane.wired hp hmsg hcarries (hfine huuid).1 hhandle
      | _ => simp [carries, hmsg] at hcarries
    · have hnet := countP_eraseIdx hp (carries D P i)
      rw [if_neg hcarries] at hnet
      have hstrand := countP_grows hhandle (fun hev => by cases hev) (completes P i) P.node
      simp only [tokens, advance, List.countP_append]
      omega
  | @run y task m es hhandle =>
    cases task with
    | write => exact tokens_runWrite hhandle
    | _ =>
      refine (hadvance hhandle fun hev => by cases hev).trans ?_
      simp only [tokens, ackedBy, List.append_nil]
      exact Nat.le_refl _

/-- A put that starts while its channel has a connection sends its DoWrite. -/
theorem tokens_started (hwired : Wired D c) {P : Put ι} {msg : PutKey} {requestor : Client}
    {stamp : Timestamp} {rest : List WriteTask}
    (head : (c.node P.node).writeStrand = .start msg requestor P.uuid stamp :: rest)
    (hstep : c.step codecs (.run P.node .write) = some c') (hwire : c.wire P.node i ≠ none) :
    1 ≤ tokens D c' P i := by
  obtain ⟨⟨z, l⟩, hz⟩ := Option.ne_none_iff_exists'.mp hwire
  have hreplica := hwired.accepted (hwired.wire hz)
  have hlt : i < (c.node P.node).config.replicas.length := by
    rw [hwired.config]
    exact (List.getElem?_eq_some_iff.mp hreplica).1
  obtain ⟨⟨m, es⟩, hhandle, rfl⟩ := Option.map_eq_some_iff.mp hstep
  -- `broadcast` sends the DoWrite to every replica, the one at index `i` among them.
  have hsent : (⟨P.node, z, .accepted l, .doWrite ⟨P.uuid, msg.key, stamp, msg.val⟩⟩ : Packet ι) ∈
      es.filterMap (c.packet P.node) := by
    cases Coordinator.acts_of_handle hhandle with
    | completeWrite head' => cases head.symm.trans head'
    | startWrite head' =>
      cases head.symm.trans head'
      refine List.mem_filterMap.mpr ⟨_, List.mem_append_right _ (List.mem_map.mpr
        ⟨i, List.mem_range.mpr hlt, rfl⟩), ?_⟩
      simp only [packet, hz, Option.map_some]
  have hpos : 0 < (c.net ++ es.filterMap (c.packet P.node)).countP (carries D P i) := by
    refine List.countP_pos_iff.mpr ⟨_, List.mem_append_right _ hsent, ?_⟩
    simp only [carries, hreplica, and_self, decide_true]
  simp only [tokens, advance]
  omega

/-- A uuid comes into the table when its put starts. -/
theorem start_of_pending {m m' : Coordinator} {ev : Coordinator.Event} {es : List Effect}
    (h : m.handle codecs ev = some (m', es)) {u : String} (hold : u ∉ m.pendingWrites)
    (hnew : u ∈ m'.pendingWrites) : ev = .runWrite ∧ ∃ msg requestor stamp rest,
      m.writeStrand = .start msg requestor u stamp :: rest := by
  cases Coordinator.acts_of_handle h with
  | @startWrite msg requestor uuid stamp rest head =>
    rcases UnorderedMap.mem_emplace.mp hnew with rfl | hmem
    · exact ⟨rfl, msg, requestor, stamp, rest, head⟩
    · exact absurd hmem hold
  | completeWrite head found =>
    rcases (AList.mem_insert _).mp hnew with rfl | hmem
    · exact absurd (UnorderedMap.mem_iff_exists_lookup.mpr ⟨_, found⟩) hold
    · exact absurd hmem hold
  | _ => exact absurd hnew hold

/-! ## Puts on their way -/

/-- A put of `x` that has been started has a message or task for the `i`-th replica, or its
WriteComplete has been handled. -/
def Sending (D : Deployment ι) (x : ι) (i : ℕ) (c : Cluster ι) : Prop :=
  ∀ P ∈ c.puts, P.node = x → P.uuid ∈ (c.node x).pendingWrites → 1 ≤ tokens D c P i

omit [DecidableEq ι] in
/-- An entry is that of a put. -/
theorem Tidy.mem_of_pending (h : Tidy c) {u : String} {y : ι}
    (hpending : u ∈ (c.node y).pendingWrites) : ∃ put ∈ c.puts, put.uuid = u := by
  by_contra hnone
  push Not at hnone
  exact (h u hnone).pending y hpending

/-- An entry that is new has been made by the start of its put. -/
theorem started_of_pending {a : Action ι} (hstep : c.step codecs a = some c') {y : ι} {u : String}
    (hold : u ∉ (c.node y).pendingWrites) (hpending : u ∈ (c'.node y).pendingWrites) :
    a = .run y .write ∧ ∃ msg requestor stamp rest,
      (c.node y).writeStrand = .start msg requestor u stamp :: rest := by
  rcases node_of_step hstep with hsame | ⟨z, ev, m, es, hhandle, hnode, hrun⟩
  · rw [hsame] at hpending
    exact absurd hpending hold
  · rw [hnode, Function.update_apply] at hpending
    split at hpending
    · next heq =>
      subst heq
      obtain ⟨rfl, msg, requestor, stamp, rest, head⟩ := start_of_pending hhandle hold hpending
      exact ⟨hrun rfl, msg, requestor, stamp, rest, head⟩
    · exact absurd hpending hold

/-- A put that is in the table has been taken before. -/
theorem taken_of_pending (hsane : Sane D codecs.replica c) {a : Action ι}
    (hstep : c.step codecs a = some c') {P : Put ι} (hP' : P ∈ c'.puts) {y : ι}
    (hpending : P.uuid ∈ (c.node y).pendingWrites) : P ∈ c.puts := by
  obtain ⟨Q, hQ, hu⟩ := hsane.tidy.mem_of_pending hpending
  exact (taken_of_put hstep hP').resolve_right fun hnew => hnew.1 Q hQ hu

/-- **Nothing of a put gets lost** between `x` and its `i`-th replica. -/
theorem Sending.step {a : Action ι} (h : Sending D x i c) (hsane : Sane D codecs.replica c)
    (hdelivers : Delivers D x i c a) (hstep : c.step codecs a = some c') : Sending D x i c' := by
  rintro P hP' rfl hpending'
  by_cases hold : P.uuid ∈ (c.node P.node).pendingWrites
  · have hP := taken_of_pending hsane hstep hP' hold
    exact (h P hP rfl hold).trans (tokens_mono hsane hstep hdelivers hP rfl)
  · obtain ⟨rfl, msg, requestor, stamp, rest, head⟩ := started_of_pending hstep hold hpending'
    exact tokens_started hsane.wired head hstep (hdelivers rfl (by rw [head]; rfl))

omit [DecidableEq ι] in
/-- When all has settled, a put has been started and the WriteComplete of the replica has been
handled. -/
theorem Sending.acked {codec : Codec DoWrite} {P : Put ι} (h : Sending D P.node i c)
    (hsane : Sane D codec c) (hquiet : c.Quiet) (hP : P ∈ c.puts) : (P.uuid, i) ∈ c.acks := by
  obtain ⟨hnet, hidle⟩ := hquiet
  have hwrites := (hidle P.node).writes
  rcases (hsane.tracked P hP).phase with hwaiting | hbegun
  · have hstart := hwaiting.start
    rw [hwrites] at hstart
    cases hstart
  · have htoken := h P hP rfl (UnorderedMap.mem_iff_exists_lookup.mpr ⟨_, hbegun.entry⟩)
    rw [tokens, hnet, hwrites, List.countP_nil, List.countP_nil, Nat.zero_add] at htoken
    exact List.count_pos_iff.mp (by omega)

/-! ## What a coordinator is owed -/

/-- A put of `x` on `k` that the `i`-th replica has not acknowledged. -/
def owing (x : ι) (i : ℕ) (k : UInt32) (acks : List (String × ℕ)) (P : Put ι) : Bool :=
  P.node = x ∧ P.msg.key = k ∧ (P.uuid, i) ∉ acks

/-- **The invariant of a counter.** -/
structure Owed (D : Deployment ι) (x : ι) (i : ℕ) (k : UInt32) (c : Cluster ι) : Prop where
  fresh : (c.node x).Fresh
  uuids : c.puts.Pairwise fun P Q => P.uuid ≠ Q.uuid
  balance : (c.node x).balance i k = (c.puts.countP (owing x i k c.acks) : ℤ)
  sent : Sending D x i c

/-- One more acknowledgement. -/
theorem countP_owing {puts : List (Put ι)} (huuids : puts.Pairwise fun P Q => P.uuid ≠ Q.uuid)
    {P : Put ι} (hP : P ∈ puts) (s : ℕ) (acks : List (String × ℕ)) :
    puts.countP (owing x i k acks) = puts.countP (owing x i k (acks ++ [(P.uuid, s)])) +
      if i = s ∧ owing x i k acks P = true then 1 else 0 := by
  obtain ⟨l₁, l₂, rfl⟩ := List.append_of_mem hP
  obtain ⟨_, hl₂, hl₁⟩ := List.pairwise_append.mp huuids
  -- Another put has another uuid, so the acknowledgement is none of its own.
  have hother : ∀ Q : Put ι, Q.uuid ≠ P.uuid →
      owing x i k acks Q = owing x i k (acks ++ [(P.uuid, s)]) Q := by
    intro Q hQ
    simp [owing, hQ]
  have h₁ : l₁.countP (owing x i k acks) = l₁.countP (owing x i k (acks ++ [(P.uuid, s)])) :=
    List.countP_congr fun Q hQ => by rw [hother Q (hl₁ Q hQ P List.mem_cons_self)]
  have h₂ : l₂.countP (owing x i k acks) = l₂.countP (owing x i k (acks ++ [(P.uuid, s)])) :=
    List.countP_congr fun Q hQ => by rw [hother Q ((List.pairwise_cons.mp hl₂).1 Q hQ).symm]
  -- The put itself is owed until the replica `s` acknowledges it.
  have hP : (if owing x i k acks P = true then 1 else 0) =
      (if owing x i k (acks ++ [(P.uuid, s)]) P = true then 1 else 0) +
        if i = s ∧ owing x i k acks P = true then 1 else 0 := by
    simp only [owing, List.mem_append, List.mem_singleton, Prod.mk.injEq, true_and,
      decide_eq_true_eq]
    by_cases his : i = s
    · simp [his]
    · simp [his]
  simp only [List.countP_append, List.countP_cons, h₁, h₂, hP]
  omega

/-- One more put. -/
theorem countP_owing_put {puts : List (Put ι)} {acks : List (String × ℕ)} {y : ι} {uuid : String}
    {msg : PutKey} {requestor : Client} {stamp : Timestamp} (hnew : (uuid, i) ∉ acks) :
    (puts ++ [(⟨y, uuid, msg, requestor, stamp⟩ : Put ι)]).countP (owing x i k acks) =
      puts.countP (owing x i k acks) + if y = x ∧ k = msg.key then 1 else 0 := by
  simp only [List.countP_append, List.countP_cons, List.countP_nil, owing, hnew,
    not_false_eq_true, and_true, decide_eq_true_eq, Nat.zero_add, @eq_comm _ k msg.key]

omit [DecidableEq ι] in
/-- The put that a WriteComplete in the strand is for. -/
theorem put_of_complete {codec : Codec DoWrite} (hsane : Sane D codec c) {y : ι}
    {msg : WriteComplete} {sender : ℕ} {rest : List WriteTask} {pending : PendingWrite}
    (head : (c.node y).writeStrand = .complete msg sender :: rest)
    (found : (c.node y).pendingWrites.lookup msg.uuid = some pending) :
    ∃ P ∈ c.puts, P.uuid = msg.uuid ∧ P.node = y ∧ pending.key = P.msg.key ∧
      (P.uuid, sender) ∉ c.acks := by
  have hmem : .complete msg sender ∈ (c.node y).writeStrand := head ▸ List.mem_cons_self
  obtain ⟨P, hP, hu⟩ : ∃ P ∈ c.puts, P.uuid = msg.uuid := by
    by_contra hnone
    push Not at hnone
    exact (hsane.tidy msg.uuid hnone).strand y _ hmem rfl
  have htracked := hsane.tracked P hP
  obtain ⟨rfl, _⟩ := htracked.tasks y _ hmem hu.symm
  refine ⟨P, hP, hu, rfl, ?_, fun hacked => ?_⟩
  · rcases htracked.phase with hwaiting | hbegun
    · exact absurd (UnorderedMap.mem_iff_exists_lookup.mpr ⟨_, found⟩) (hu ▸ hwaiting.pending)
    · have hentry := hbegun.entry
      rw [hu, found] at hentry
      rw [Option.some.inj hentry]
  · -- the task and the acknowledgement would be two tokens
    have honce := htracked.once sender
    have hacks := List.count_pos_iff.mpr hacked
    have htask : 0 < (c.node P.node).writeStrand.countP (completes P sender) :=
      List.countP_pos_iff.mpr ⟨_, hmem, by simp [completes, hu]⟩
    rw [tokens] at honce
    omega

section Step

variable (hmode : (D.config x).mode = .hintedHandoff) (hi : i < Coordinator.hintsSize)
  (hsane : Sane D codecs.replica c) (h : Owed D x i k c)

include hmode hi hsane h

/-- The balance at `x` after a step of the server `y`. -/
theorem balance_advance {y : ι} {ev : Coordinator.Event} {m : Coordinator} {es : List Effect}
    (hhandle : (c.node y).handle codecs ev = some (m, es)) :
    (Function.update c.node y m x).balance i k = c.puts.countP (owing x i k c.acks) +
      if y = x then (c.node y).owes i k ev else 0 := by
  rw [Function.update_apply]
  by_cases hyx : y = x
  · subst hyx
    rw [if_pos rfl, if_pos rfl, ← h.balance]
    exact Coordinator.balance_of_handle hhandle (by rw [hsane.wired.config]; exact hmode) h.fresh hi
      k
  · rw [if_neg (Ne.symm hyx), if_neg hyx, add_zero, h.balance]

/-- A task of the write strand: a put that starts owes one more, one that is acknowledged one less.
-/
theorem balance_runWrite {y : ι} {m : Coordinator} {es : List Effect}
    (hhandle : (c.node y).handle codecs .runWrite = some (m, es)) :
    (Function.update c.node y m x).balance i k = (c.puts.countP
      (owing x i k (c.acks ++ ackedBy .write (c.node y).writeStrand)) : ℤ) := by
  have hbalance := balance_advance hmode hi hsane h hhandle
  rw [hbalance]
  cases Coordinator.acts_of_handle hhandle with
  | startWrite head =>
    simp only [Coordinator.owes, head, ackedBy, List.append_nil, ite_self, add_zero]
  | @completeWrite msg sender rest pending head found =>
    obtain ⟨P, hP, hu, hnode, hkey, hacked⟩ := put_of_complete hsane head found
    simp only [Coordinator.owes, head, found, ackedBy]
    rw [countP_owing h.uuids hP sender c.acks, ← hu]
    push_cast
    by_cases hyx : y = x
    · by_cases his : i = sender
      · subst his
        simp only [owing, hnode, hyx, hkey, hacked, true_and, not_false_eq_true, and_true,
          decide_eq_true_eq, if_true, @eq_comm _ k P.msg.key]
        split <;> ring
      · simp [his, hyx]
    · have hno : owing x i k c.acks P = false := by simp [owing, hnode, hyx]
      simp [hno, hyx]

end Step

section Step

variable (hsane : Sane D codecs.replica c) (h : Owed D x i k c)

include h

theorem Owed.step_fresh {a : Action ι} (hstep : c.step codecs a = some c') : (c'.node x).Fresh := by
  rcases node_of_step hstep with hsame | ⟨y, ev, m, es, hhandle, hnode, _⟩
  · rw [hsame]
    exact h.fresh
  · rw [hnode, Function.update_apply]
    split
    · next heq =>
      subst heq
      exact h.fresh.handle hhandle
    · exact h.fresh

include hsane

/-- **The invariant is kept by a step that loses no message.** -/
theorem Owed.step (hmode : (D.config x).mode = .hintedHandoff) (hi : i < Coordinator.hintsSize)
    {a : Action ι} (hstep : c.step codecs a = some c') (hdelivers : Delivers D x i c a) :
    Owed D x i k c' := by
  have hfresh := h.step_fresh hstep
  have hbalance := @balance_advance _ _ _ codecs _ _ _ _ hmode hi hsane h
  have hsent := h.sent.step hsane hdelivers hstep
  -- The stamps, the uuids and what was sent are kept by every step; what is left is the balance.
  cases steps_of_step hstep with
  | @client y requestor msg stamp uuid m es hunused hhandle =>
    have hbal := hbalance hhandle
    cases msg with
    | putKey msg =>
      refine ⟨hfresh, ?_, hbal.trans ?_, hsent⟩
      · refine List.pairwise_append.mpr ⟨h.uuids, List.pairwise_singleton _ _, fun P hP Q hQ => ?_⟩
        rw [List.mem_singleton.mp hQ]
        exact hunused.2 P hP
      · show _ = ((c.puts ++ [_]).countP (owing x i k c.acks) : ℤ)
        rw [countP_owing_put ((hsane.tidy uuid hunused.2).acks i)]
        push_cast
        by_cases hyx : y = x <;> simp [hyx, Coordinator.owes]
    | _ =>
      refine ⟨hfresh, ?_, hbal.trans ?_, hsent⟩
      · simpa [takenBy] using h.uuids
      · simp [takenBy, Coordinator.owes, advance]
  | connect replica handle =>
    refine ⟨hfresh, h.uuids, (hbalance handle).trans ?_, hsent⟩
    simp [Coordinator.owes, advance]
  | lose bound => exact ⟨hfresh, h.uuids, h.balance, hsent⟩
  | deliver get next handle =>
    refine ⟨hfresh, h.uuids, (hbalance handle).trans ?_, hsent⟩
    simp [Coordinator.owes, advance]
  | @run y task m es handle =>
    cases task with
    -- The write strand settles the debt: the hint is dropped when the WriteComplete is counted.
    | write => exact ⟨hfresh, h.uuids, balance_runWrite hmode hi hsane h handle, hsent⟩
    | _ =>
      refine ⟨hfresh, h.uuids, (hbalance handle).trans ?_, hsent⟩
      simp [Coordinator.owes, ackedBy, advance, Task.event]

end Step

/-- At the start nothing is owed. -/
theorem owed_start {codec : Codec DoWrite} (hmode : (D.config x).mode = .hintedHandoff)
    (old : ι → List DoWrite) : Owed D x i k (start D codec old fun _ => []) where
  fresh := Or.inr ⟨[], if_pos hmode, List.not_mem_nil, rfl⟩
  uuids := .nil
  balance := by
    simp [Coordinator.balance, start, Coordinator.create, hmode, Coordinator.HintTask.weight]
  sent := nofun

/-- **Hints are retired.** When all has settled and the replica holds nothing older than the
coordinator, the coordinator has no hint for it. -/
def Retired (D : Deployment ι) (x : ι) (i : ℕ) (k : UInt32) (c : Cluster ι) : Prop :=
  ∀ y, (D.config x).replicas[i]? = some (D.config y).address → c.Quiet →
    ((c.node x).copyOf k).timestamp ≤ ((c.node y).copyOf k).timestamp → (c.node x).hints i k = 0

/-- When all has settled every put has been acknowledged, so nothing is owed. -/
theorem Owed.retired {codec : Codec DoWrite} (h : Owed D x i k c) (hsane : Sane D codec c) :
    Retired D x i k c := by
  intro y _ hquiet _
  have hnone : c.puts.countP (owing x i k c.acks) = 0 := by
    refine List.countP_eq_zero.mpr fun P hP howing => ?_
    simp only [owing, decide_eq_true_eq] at howing
    obtain ⟨rfl, _, hacked⟩ := howing
    exact hacked (h.sent.acked hsane hquiet hP)
  have hbalance := h.balance
  rw [hnone, Coordinator.balance, (hquiet.2 x).hints] at hbalance
  simpa using hbalance

/-- **A hint is retired unless a message of its put was lost.** In every run of servers in
hinted-handoff mode that loses no message of a put of `x` to or from its `i`-th replica, every
state reached has the hints of that replica retired. -/
theorem hints_retired (D : Deployment ι) (codecs : Coordinator.Codecs) (old : ι → List DoWrite)
    {x : ι} (hmode : (D.config x).mode = .hintedHandoff)
    (hthree : (D.config x).replicas.length = Coordinator.hintsSize) {i : ℕ}
    (hi : i < (D.config x).replicas.length) (k : UInt32) {as : List (Action ι)} {c : Cluster ι}
    (hdelivers : Along (step codecs) (Delivers D x i) (start D codecs.replica old fun _ => []) as)
    (hrun : exec (step codecs) (start D codecs.replica old fun _ => []) as = some c) :
    Retired D x i k c := by
  have hinv : Owed D x i k c ∧ Sane D codecs.replica c := by
    refine exec_inv_along (P := fun c => Owed D x i k c ∧ Sane D codecs.replica c) ?_
      ⟨owed_start hmode old, sane_start D codecs.replica old fun _ => []⟩ hdelivers hrun
    rintro c a c' ⟨howed, hsane⟩ hdelivers hstep
    exact ⟨howed.step hsane hmode (hthree ▸ hi) hstep hdelivers, hsane.step hstep⟩
  exact hinv.1.retired hinv.2

/-! ## A hint that stays -/

/-- Two servers with three replicas each, of which one runs. -/
def trio : Deployment Bool where
  config b := ⟨"127.0.0.1", if b then 9002 else 9001,
    [("127.0.0.1", if b then "9001" else "9002"), ("127.0.0.1", "9003"), ("127.0.0.1", "9004")],
    .hintedHandoff⟩
  distinct := by decide
  nodup := by decide
  others := by decide

noncomputable def trioCodecs : Coordinator.Codecs := ⟨firstCodec, hintProto⟩

noncomputable def trioStart : Cluster Bool := start trio firstCodec (fun _ => []) fun _ => []

/-- The logs are replayed and the first server connects to the second. -/
def trioOpening : List (Action Bool) :=
  [.run false .hint, .run true .hint, .run false .log, .run true .log, .connect false 0 true,
    .run false (.posted 0), .deliver 0]

/-- The second server connects back; a put is sent, written and acknowledged. -/
def acknowledgedPut : List (Action Bool) := trioOpening ++
  [.connect true 0 false, .run true (.posted 0), .deliver 0,
    .client false 0 (.putKey ⟨7, 5, "v", 1⟩) ⟨100, 0⟩ "u", .run false .log, .run false .hint,
    .run false .hint, .run false .hint, .run false .write, .deliver 0, .run true .log, .deliver 0,
    .run false .write, .run false .hint]

/-- A put is acknowledged by the replica that runs, so its hint for it is retired. -/
theorem hints_retired_trio : ∃ c, exec (step trioCodecs) trioStart acknowledgedPut = some c ∧
    c.Quiet ∧ c.acks = [("u", 0)] ∧ Retired trio false 0 5 c := by
  have hend : (exec (step trioCodecs) trioStart acknowledgedPut).any (fun c =>
      c.net = [] ∧ (c.node false).Idle ∧ (c.node true).Idle ∧ c.acks = [("u", 0)]) = true := by
    decide +kernel
  obtain ⟨c, hrun, hc⟩ := (Option.any_eq_true _ _).mp hend
  obtain ⟨hnet, hfirst, hsecond, hacks⟩ := of_decide_eq_true hc
  have hdelivers : Along (step trioCodecs) (Delivers trio false 0) trioStart acknowledgedPut := by
    decide +kernel
  exact ⟨c, hrun, ⟨hnet, Bool.forall_bool.mpr ⟨hfirst, hsecond⟩⟩, hacks,
    hints_retired trio trioCodecs (fun _ => []) rfl rfl (by decide) 5 hdelivers hrun⟩

/-- The connection breaks while the DoWrite is on the way; after the reconnect the key is sent
as a repair. -/
def handedOffPut : List (Action Bool) := trioOpening ++
  [.client false 0 (.putKey ⟨7, 5, "v", 1⟩) ⟨100, 0⟩ "u", .run false .log, .run false .hint,
    .run false .hint, .run false .hint, .run false .write, .lose 0, .connect false 0 true,
    .run false (.posted 0), .deliver 0, .deliver 0, .run true .log]

/-- **The replica has caught up and the hint stays.** -/
theorem hint_of_handedOff_stays : ∃ c, exec (step trioCodecs) trioStart handedOffPut = some c ∧
    ¬ Retired trio false 0 5 c := by
  have hend : (exec (step trioCodecs) trioStart handedOffPut).any (fun c =>
      c.net = [] ∧ (c.node false).Idle ∧ (c.node true).Idle ∧
      (c.node true).copyOf 5 = (c.node false).copyOf 5 ∧ (c.node false).hints 0 5 = 1) = true := by
    decide +kernel
  obtain ⟨c, hrun, hc⟩ := (Option.any_eq_true _ _).mp hend
  obtain ⟨hnet, hfirst, hsecond, hcopy, hhint⟩ := of_decide_eq_true hc
  refine ⟨c, hrun, fun hretired => ?_⟩
  have hzero := hretired true rfl ⟨hnet, Bool.forall_bool.mpr ⟨hfirst, hsecond⟩⟩ (by rw [hcopy])
  rw [hhint] at hzero
  cases hzero

end Cluster

end Cs457.Kv
