import Cs457.Kv.ReadRepair
import Cs457.Kv.LastPut
import Cs457.Kv.Puts
import Cs457.Kv.Origins
import Mathlib.Order.Bounds.Basic
import Mathlib.Data.Set.Finite.Lemmas

/-!
# Key-value store — read repair converges

A server compares the responses to its read repair with its own copy, which lags behind what its
log has queued, so it may send an older version after a newer one. Still every server of the
group ends with the newest stamp: a version is never replaced by an older one, and as long as a
server has not been sent the newest stamp its response is still to come.

* **`Phase`** — where the newest stamp is: all have been sent it, or the server that answered the
  get holds it, or a response with it is on its way there.
* **`Phase.step`** — one step.
* **`read_repair_converges`** — when all is handled, the whole group holds the newest stamp.
-/

namespace Cs457.Kv

open Transition

namespace Replica

variable {codec : Codec DoWrite} {r r' : Replica} {key : UInt32} {T : Timestamp}

/-- The store holds an element of the key that is at least as new as `T`. -/
def Reaches (key : UInt32) (T : Timestamp) (s : Store) : Prop :=
  ∃ e, s key = some e ∧ T ≤ e.timestamp

/-- After a put the store reaches what it has reached before, and the put. -/
theorem reaches_put_iff {s : Store} {m : DoWrite} :
    Reaches key T (storeRegister.put s m) ↔ Reaches key T s ∨ m.key = key ∧ T ≤ m.timestamp := by
  constructor
  · rintro ⟨e, he, hle⟩
    unfold Register.put at he
    split at he
    · exact Or.inl ⟨e, he, hle⟩
    · by_cases hkey : m.key = key
      · subst hkey
        rw [show storeRegister.key m = m.key from rfl, Function.update_self] at he
        obtain rfl := Option.some.inj he
        exact Or.inr ⟨rfl, hle⟩
      · have hne : key ≠ storeRegister.key m := Ne.symm hkey
        rw [Function.update_of_ne hne] at he
        exact Or.inl ⟨e, he, hle⟩
  · rintro (⟨e, he, hle⟩ | ⟨rfl, hle⟩)
    · obtain ⟨e', he', hle'⟩ := Register.put_time (R := storeRegister) (w := m) he
      exact ⟨e', he', hle.trans hle'⟩
    · obtain ⟨e, he, hle'⟩ := Register.covers_put_self (R := storeRegister) s m
      exact ⟨e, he, hle.trans hle'⟩

/-- What is stored is also there when the queue has been applied. -/
theorem Reaches.settled (h : Reaches key T r.store) : Reaches key T r.settled := by
  obtain ⟨e, he, hle⟩ := h
  obtain ⟨e', he', hle'⟩ := Register.apply_time (R := storeRegister) he (queue r.strand)
  exact ⟨e', he', hle.trans hle'⟩

/-- When no log waits the store is settled. -/
theorem settled_of_idle (h : r.strand = []) : r.settled = r.store := by
  rw [settled, h]
  rfl

/-- A write is settled at once, though its task is still to run. -/
theorem reaches_settled_write {k : UInt32} {data : String} {timestamp : Timestamp}
    (h : r.write k data timestamp = .ok r') :
    Reaches key T r'.settled ↔ Reaches key T r.settled ∨ k = key ∧ T ≤ timestamp := by
  rw [settled_write h]
  exact reaches_put_iff

/-- A task of the log takes no version back. -/
theorem Reaches.runTask (h : Reaches key T r.store) (htask : r.runTask codec = some r') :
    Reaches key T r'.store := by
  obtain ⟨t, rest, hstrand, hperform⟩ := runTask_eq_some htask
  cases t with
  | update m =>
    cases hperform
    rw [updateTask_store]
    exact reaches_put_iff.mpr (Or.inl h)
  | replay =>
    rw [(replay_keeps hperform).1]
    exact h

/-- **No step of a replica goes back to an older version.** -/
theorem Reaches.grows (h : Reaches key T r.store) (hgrows : Grows codec r r') :
    Reaches key T r'.store := by
  cases hgrows with
  | same => exact h
  | write hwrite =>
    obtain ⟨-, ⟨-, rfl⟩ | ⟨-, rfl⟩⟩ := write_ok hwrite
    · exact h
    · exact h
  | task htask => exact h.runTask htask

/-- Nor does any other step, once the replay is over. -/
theorem Reaches.settled_grows (h : Reaches key T r.settled) (hreplay : LogTask.replay ∉ r.strand)
    (hgrows : Grows codec r r') : Reaches key T r'.settled := by
  cases hgrows with
  | same => exact h
  | write hwrite => exact (reaches_settled_write hwrite).mpr (Or.inl h)
  | task htask =>
    obtain ⟨e, he, hle⟩ := h
    exact ⟨e, (settled_runTask (Or.inl hreplay) htask).trans he, hle⟩

end Replica

open Replica (Reaches)

/-- The servers that a get at `x` repairs: itself and its replicas. -/
def Deployment.group {ι : Type} (D : Deployment ι) (x : ι) : Set ι :=
  {y | y = x ∨ (D.config y).address ∈ (D.config x).replicas}

/-- A version of the key has a stamp from zero to `T`. -/
def Between (key : UInt32) (T : Timestamp) (k : UInt32) (e : Element) : Prop :=
  k = key → Timestamp.zero ≤ e.timestamp ∧ e.timestamp ≤ T

namespace Cluster

variable {ι : Type} {D : Deployment ι} {codecs : Coordinator.Codecs} {codec : Codec DoWrite}
  {c c' : Cluster ι} {x y : ι} {key : UInt32} {T : Timestamp}

/-- Every channel of the server has a connection. -/
def Connected (c : Cluster ι) (x : ι) : Prop :=
  ∀ i < (c.node x).config.replicas.length, (c.wire x i).isSome = true

instance (c : Cluster ι) (x : ι) : Decidable (c.Connected x) :=
  inferInstanceAs (Decidable (∀ i < _, _))

/-- The connections are as before. -/
theorem Connected.of_wire (h : c.Connected x) (hwired : Wired D c) (hwired' : Wired D c')
    (hwire : c'.wire = c.wire) : c'.Connected x := by
  unfold Connected at h ⊢
  rw [hwired'.config, hwire]
  rwa [hwired.config] at h

/-- A server's version of the key is at least as new as `T` when its store reaches `T`. -/
theorem le_stampOf_iff (hT : Timestamp.zero < T) :
    T ≤ c.stampOf key y ↔ Reaches key T (c.node y).replica.store := by
  unfold stampOf Coordinator.copyOf Reaches
  cases (c.node y).replica.store key with
  | none =>
    refine iff_of_false (not_le.mpr hT) ?_
    rintro ⟨e, he, -⟩
    cases he
  | some e => simp

/-- A key that is not stored counts as the oldest version. -/
theorem stampOf_of_none (h : (c.node y).replica.store key = none) :
    c.stampOf key y = Timestamp.zero := by
  unfold stampOf Coordinator.copyOf
  rw [h]
  rfl

theorem stampOf_eq {e : Element} (h : (c.node y).replica.store key = some e) :
    c.stampOf key y = e.timestamp := by
  unfold stampOf Coordinator.copyOf
  rw [h]
  rfl

/-- There is a connection to every server of the group. -/
theorem Wired.wire_group (h : Wired D c) (hconnected : c.Connected x) (hy : y ∈ D.group x)
    (hne : y ≠ x) : ∃ i < (c.node x).config.replicas.length, ∃ k, c.wire x i = some (y, k) := by
  obtain ⟨i, hi, heq⟩ := List.getElem_of_mem (hy.resolve_left hne)
  have hlt : i < (c.node x).config.replicas.length := by
    rw [h.config]
    exact hi
  obtain ⟨⟨z, k⟩, hwire⟩ := Option.isSome_iff_exists.mp (hconnected i hlt)
  have hz := h.accepted (h.wire hwire)
  rw [List.getElem?_eq_getElem hi, heq] at hz
  obtain rfl := D.distinct (Option.some.inj hz)
  exact ⟨i, hlt, k, hwire⟩

/-- A server at the other end of a connection is of the group. -/
theorem Wired.mem_group (h : Wired D c) {i k : ℕ} (hwire : c.wire x i = some (y, k)) :
    y ∈ D.group x :=
  Or.inr (List.mem_of_getElem? (h.accepted (h.wire hwire)))

/-! ## What the server takes in -/

section RepairMoves

variable [DecidableEq ι]

/-- **Where a new version at the server comes from**: it was queued before, or the server has just
taken it in and sent it to all. -/
theorem RepairMoves.settled_own (h : RepairMoves codec x key c c')
    (hreplay : LogTask.replay ∉ (c.node x).replica.strand)
    (hreach : Reaches key T (c'.node x).replica.settled) :
    Reaches key T (c.node x).replica.settled ∨ ∃ msg : DoWrite, T ≤ msg.timestamp ∧
      ((c.node x).broadcast (.doWrite msg)).filterMap (c.packet x) ⊆ c'.net := by
  have hsame : (c'.node x).replica = (c.node x).replica →
      Reaches key T (c.node x).replica.settled := fun heq => heq ▸ hreach
  cases h with
  | @log y replica task node net =>
    left
    -- a log task of `x` moves a version from the queue into the store
    rw [node] at hreach
    by_cases hy : x = y
    · subst hy
      rw [Function.update_self] at hreach
      obtain ⟨e, he, hle⟩ := hreach
      exact ⟨e, (Replica.settled_runTask (Or.inl hreplay) task).symm.trans he, hle⟩
    · rw [Function.update_of_ne hy] at hreach
      exact hreach
  | asks task node net => exact Or.inl (hsame (by rw [node, Function.update_self]))
  | @reads y m node replica hints writes posted own kept fresh =>
    refine Or.inl (hsame ?_)
    rw [node]
    by_cases hy : x = y
    · subst hy
      rw [Function.update_self, replica]
    · rw [Function.update_of_ne hy]
  | answers get msg wire node net | older get response held notNewer wire node net
  | same get response held stamp node net => exact Or.inl (hsame (by rw [node]))
  | takes get doWrite other forKey write node net =>
    exact Or.inl (hsame (by rw [node, Function.update_of_ne (Ne.symm other)]))
  | @newer n p msg replica get response forKey newer write node net =>
    -- the version that is taken in is broadcast in the same handler
    rw [node, Function.update_self, Replica.reaches_settled_write write] at hreach
    refine hreach.imp_right fun hle => ⟨⟨"RR", key, msg.timestamp, msg.val⟩, hle.2, ?_⟩
    rw [net]
    exact List.subset_append_right _ _

end RepairMoves

/-! ## Stamps -/

/-- **The invariant of the versions.** No version of the key in the group is newer than `T`, and a
server that has answered with `T` holds it. -/
structure Bounded (D : Deployment ι) (codec : Codec DoWrite) (x : ι) (key : UInt32) (T : Timestamp)
    (c : Cluster ι) : Prop where
  stocked : ∀ y ∈ D.group x, (c.node y).replica.Stocked codec (Between key T)
  carried : ∀ p ∈ c.net, ∀ v ∈ p.msg.carries, Between key T v.1 v.2
  answered : Timestamp.zero < T → ∀ p ∈ c.net, ∀ msg, p.msg = .readRepairResponse msg →
    T ≤ msg.timestamp → Reaches key T (c.node p.src).replica.store

/-- The copy of a server of the group has a stamp in the bounds, also if it stands for none. -/
theorem Bounded.copyOf (h : Bounded D codec x key T c) (hT : Timestamp.zero ≤ T)
    (hy : y ∈ D.group x) :
    Timestamp.zero ≤ c.stampOf key y ∧ c.stampOf key y ≤ T := by
  cases hheld : (c.node y).replica.store key with
  | none =>
    rw [stampOf_of_none hheld]
    exact ⟨le_rfl, hT⟩
  | some e =>
    rw [stampOf_eq hheld]
    exact (h.stocked y hy).store key e hheld rfl

section Steps

variable [DecidableEq ι]

/-- What is written was on the way. -/
theorem RepairMoves.stocked (h : RepairMoves codec x key c c') (hb : Bounded D codec x key T c) :
    ∀ y ∈ D.group x, (c'.node y).replica.Stocked codec (Between key T) := by
  -- Only the replica of the server that moves has to be looked at.
  have hupdate : ∀ {z : ι} {m : Coordinator}, c'.node = Function.update c.node z m →
      (z ∈ D.group x → m.replica.Stocked codec (Between key T)) →
      ∀ y ∈ D.group x, (c'.node y).replica.Stocked codec (Between key T) := fun hnode hm =>
    forall_node_of_update (P := fun y m => y ∈ D.group x → m.replica.Stocked codec (Between key T))
      hnode hm hb.stocked
  cases h with
  | log task node net => exact hupdate node fun hz => (hb.stocked _ hz).runTask task
  | asks task node net => exact hupdate node fun hz => hb.stocked _ hz
  | reads node replica hints writes posted own kept fresh =>
    refine hupdate node fun hz => ?_
    rw [replica]
    exact hb.stocked _ hz
  | answers get msg wire node net | older get response held notNewer wire node net
  | same get response held stamp node net =>
    rw [node]
    exact hb.stocked
  -- What is written came in a message, and the messages carry only bounded elements.
  | takes get doWrite other forKey write node net =>
    refine hupdate node fun hz => (hb.stocked _ hz).write write ?_
    have hcarried := hb.carried _ (List.mem_of_getElem? get)
    rw [doWrite] at hcarried
    exact fun _ => hcarried _ rfl forKey
  | newer get response forKey newer write node net =>
    refine hupdate node fun hz => (hb.stocked _ hz).write write ?_
    have hcarried := hb.carried _ (List.mem_of_getElem? get)
    rw [response] at hcarried
    exact fun _ => hcarried _ rfl forKey

/-- What is sent is a copy, or was on the way. -/
theorem RepairMoves.carried (h : RepairMoves codec x key c c') (hwired : Wired D c)
    (hb : Bounded D codec x key T c) (hT : Timestamp.zero ≤ T) :
    ∀ p ∈ c'.net, ∀ v ∈ p.msg.carries, Between key T v.1 v.2 := by
  intro q hq v hv
  rcases h.sends hq with hold | hsends
  · exact hb.carried q hold v hv
  · cases hsends with
    | asks out repair =>
      rw [repair] at hv
      cases hv
    | reads fits read =>
      rw [ServerMessage.carries_of_isRead read] at hv
      cases hv
    | answers home response =>
      obtain ⟨-, i, k, hwire, -⟩ := home
      rw [response] at hv
      cases hv
      -- a replica without the key answers with the stamp zero
      exact fun _ => hb.copyOf hT (hwired.mem_group hwire)
    | @passesOn p msg mem response forKey out doWrite =>
      have hcarried := hb.carried p mem (msg.key, ⟨msg.val, msg.timestamp⟩) (by rw [response]; rfl)
      rw [doWrite] at hv
      cases hv
      exact fun _ => hcarried forKey
    | copies held out doWrite =>
      rw [doWrite] at hv
      cases hv
      exact (hb.stocked x (Or.inl rfl)).store _ _ held

/-- A response is new only when it has the stamp of a copy. -/
theorem RepairMoves.response_new (h : RepairMoves codec x key c c') {q : Packet ι} (hq : q ∈ c'.net)
    {msg : ReadRepairResponse} (hmsg : q.msg = .readRepairResponse msg) :
    q ∈ c.net ∨ msg.timestamp = c.stampOf key q.src := by
  refine (h.sends hq).imp_right fun hsends => ?_
  cases hsends with
  | answers home response =>
    cases hmsg.symm.trans response
    rfl
  | reads fits read =>
    rw [hmsg] at read
    cases read
  | asks out other | passesOn mem response forKey out other | copies held out other =>
    cases hmsg.symm.trans other

/-- **One step.** -/
theorem Bounded.move (hb : Bounded D codec x key T c) (hwired : Wired D c) (hT : Timestamp.zero ≤ T)
    (h : RepairMoves codec x key c c')
    (hgrows : ∀ y, Replica.Grows codec (c.node y).replica (c'.node y).replica) :
    Bounded D codec x key T c' where
  stocked := h.stocked hb
  carried := h.carried hwired hb hT
  answered hpos q hq msg hmsg hle := by
    apply Reaches.grows _ (hgrows q.src)
    rcases h.response_new hq hmsg with hold | hstamp
    · exact hb.answered hpos q hold msg hmsg hle
    · rw [hstamp] at hle
      exact (le_stampOf_iff hpos).mp hle

end Steps

/-! ## Where the newest stamp is -/

/-- The server has been sent a version with the stamp `T`, or one at least as new is in its store or
its queue. -/
def Sent (c : Cluster ι) (key : UInt32) (T : Timestamp) (y : ι) : Prop :=
  Reaches key T (c.node y).replica.settled ∨
    ∃ p ∈ c.net, p.dst = y ∧ ∃ msg, p.msg = .doWrite msg ∧ T ≤ msg.timestamp

/-- The response of the server, with a stamp of `P`, is still to come. -/
def Expected (c : Cluster ι) (x : ι) (key : UInt32) (P : Timestamp → Prop) (y : ι) : Prop :=
  .readRepair key ∈ (c.node x).posted ∨
    (∃ p ∈ c.net, p.dst = y ∧ p.msg = .readRepair ⟨key⟩) ∨
    ∃ p ∈ c.net, p.src = y ∧ ∃ msg, p.msg = .readRepairResponse msg ∧ P msg.timestamp

/-- **Where the newest stamp is.** All of the group have been sent it; or the server holds it, and
sends it to whoever has not been sent it when the response comes; or the response of a server that
holds it is still to come. -/
inductive Phase (D : Deployment ι) (x : ι) (key : UInt32) (T : Timestamp) (c : Cluster ι) : Prop
  | spread (all : ∀ y ∈ D.group x, c.Sent key T y)
  | held (own : Reaches key T (c.node x).replica.store)
      (others : ∀ y ∈ D.group x, y ≠ x → c.Sent key T y ∨ c.Expected x key (fun _ => True) y)
  | awaited {y : ι} (own : ¬ Reaches key T (c.node x).replica.settled) (group : y ∈ D.group x)
      (other : y ≠ x) (copy : Reaches key T (c.node y).replica.store)
      (response : c.Expected x key (T ≤ ·) y)

section Steps

variable [DecidableEq ι]

/-- What has been sent stays so. -/
theorem Sent.move (hsent : c.Sent key T y)
    (hreplay : LogTask.replay ∉ (c.node y).replica.strand) (h : RepairMoves codec x key c c')
    (hgrows : Replica.Grows codec (c.node y).replica (c'.node y).replica) : c'.Sent key T y := by
  rcases hsent with hreach | ⟨p, hp, rfl, msg, hmsg, hle⟩
  · exact Or.inl (hreach.settled_grows hreplay hgrows)
  · rcases h.handled hp with hstays | hhandled
    · exact Or.inr ⟨p, hstays, rfl, msg, hmsg, hle⟩
    · cases hhandled with
      | written doWrite write =>
        obtain rfl := ServerMessage.doWrite.inj (hmsg.symm.trans doWrite)
        exact Or.inl ((Replica.reaches_settled_write write).mpr (Or.inr ⟨rfl, hle⟩))
      | read read =>
        rw [hmsg] at read
        cases read
      | answered other | heard other => cases hmsg.symm.trans other

/-- A broadcast goes to every server of the group. -/
theorem Wired.broadcast_group (h : Wired D c) (hconnected : c.Connected x) (hy : y ∈ D.group x)
    (hne : y ≠ x) (msg : ServerMessage) :
    ∃ p ∈ ((c.node x).broadcast msg).filterMap (c.packet x), p.dst = y ∧ p.msg = msg := by
  obtain ⟨i, hi, k, hwire⟩ := h.wire_group hconnected hy hne
  exact ⟨_, mem_broadcast.mpr ⟨i, hi, y, k, hwire, rfl⟩, rfl, rfl⟩

/-- A response is still to come until it has been compared. -/
theorem Expected.move {P : Timestamp → Prop} (hexpected : c.Expected x key P y) (hwired : Wired D c)
    (hconnected : c.Connected x) (hy : y ∈ D.group x) (hne : y ≠ x) (hcopy : P (c.stampOf key y))
    (h : RepairMoves codec x key c c') :
    c'.Expected x key P y ∨ ∃ q ∈ c.net, q.src = y ∧ ∃ msg, q.msg = .readRepairResponse msg ∧
      P msg.timestamp ∧ Heard x key c c' y msg := by
  -- The answer is expected because the repair is still posted, or sent to `y`, or answered by `y`;
  -- the move takes it from one to the next or leaves it.
  rcases hexpected with hposted | ⟨p, hp, rfl, hmsg⟩ | ⟨p, hp, rfl, msg, hmsg, hP⟩
  · left
    rcases h.posted hposted with hstays | hsent
    · exact Or.inl hstays
    · obtain ⟨p, hp, hdst, hmsg⟩ := hwired.broadcast_group hconnected hy hne (.readRepair ⟨key⟩)
      exact Or.inr (Or.inl ⟨p, hsent hp, hdst, hmsg⟩)
  · left
    rcases h.handled hp with hstays | hhandled
    · exact Or.inr (Or.inl ⟨p, hstays, rfl, hmsg⟩)
    · cases hhandled with
      | answered repair sent src response =>
        exact Or.inr (Or.inr ⟨_, sent, src, _, response, hcopy⟩)
      | read read =>
        rw [hmsg] at read
        cases read
      | written other | heard other => cases hmsg.symm.trans other
  · rcases h.handled hp with hstays | hhandled
    · exact Or.inl (Or.inr (Or.inr ⟨p, hstays, rfl, msg, hmsg, hP⟩))
    · cases hhandled with
      | heard response heard =>
        obtain rfl := ServerMessage.readRepairResponse.inj (hmsg.symm.trans response)
        exact Or.inr ⟨p, hp, rfl, _, hmsg, hP, heard⟩
      | read read =>
        rw [hmsg] at read
        cases read
      | answered other | written other => cases hmsg.symm.trans other

/-- **One step.** The server compares a response with the newest stamp: if it has that itself, the
other is sent it or has it; if not, it takes the version in and sends it to all. -/
theorem Phase.move (h : Phase D x key T c) (hrep : Repairing D x key c)
    (hconnected : c.Connected x) (hb : Bounded D codec x key T c) (hT : Timestamp.zero < T)
    (hmove : RepairMoves codec x key c c')
    (hgrows : ∀ y, Replica.Grows codec (c.node y).replica (c'.node y).replica) :
    Phase D x key T c' := by
  have hsent : ∀ z, c.Sent key T z → c'.Sent key T z := fun z hz =>
    hz.move (hrep.tasks z).replays hmove (hgrows z)
  cases h with
  | spread all => exact .spread fun z hz => hsent z (all z hz)
  | held own others =>
    refine .held (own.grows (hgrows x)) fun z hz hne => ?_
    rcases others z hz hne with hz' | hexpected
    · exact Or.inl (hsent z hz')
    · rcases hexpected.move hrep.wired hconnected hz hne trivial hmove with hstays |
        ⟨q, hq, hsrc, msg, hmsg, -, hheard⟩
      · exact Or.inr hstays
      · left
        obtain ⟨e, he, hle⟩ := own
        cases hheard with
        | newer newer write =>
          -- there is no newer version
          have hfits := hrep.messages q hq
          rw [Fits, hmsg] at hfits
          have hcarried := hb.carried q hq (msg.key, ⟨msg.val, msg.timestamp⟩) (by rw [hmsg]; rfl)
          exact absurd (hle.trans_lt (newer e he)) (not_lt.mpr (hcarried hfits.2).2)
        | older held notNewer sent dst doWrite =>
          obtain rfl := Option.some.inj (he.symm.trans held)
          exact Or.inr ⟨_, sent, dst, _, doWrite, hle⟩
        | same held stamp =>
          obtain rfl := Option.some.inj (he.symm.trans held)
          have hcopy := hb.answered hT q hq msg hmsg (hle.trans stamp.ge)
          rw [hsrc] at hcopy
          exact hsent z (Or.inl hcopy.settled)
  | @awaited z own group other copy response =>
    by_cases hreach : Reaches key T (c'.node x).replica.settled
    · -- the server has just taken in the newest stamp
      obtain ⟨msg, hle, hbroadcast⟩ :=
        (hmove.settled_own (hrep.tasks x).replays hreach).resolve_left own
      refine .spread fun w hw => ?_
      by_cases hwx : w = x
      · subst hwx
        exact Or.inl hreach
      · obtain ⟨p, hp, hdst, hmsg⟩ :=
          hrep.wired.broadcast_group hconnected hw hwx (.doWrite msg)
        exact Or.inr ⟨p, hbroadcast hp, hdst, msg, hmsg, hle⟩
    · rcases response.move hrep.wired hconnected group other ((le_stampOf_iff hT).mpr copy) hmove
        with hstays | ⟨q, hq, hsrc, msg, hmsg, hle, hheard⟩
      · exact .awaited hreach group other (copy.grows (hgrows z)) hstays
      · cases hheard with
        | newer newer write =>
          exact absurd ((Replica.reaches_settled_write write).mpr (Or.inr ⟨rfl, hle⟩)) hreach
        | older held notNewer sent dst doWrite =>
          exact absurd (Reaches.settled ⟨_, held, hle.trans notNewer⟩) own
        | same held stamp => exact absurd (Reaches.settled ⟨_, held, hle.trans stamp.le⟩) own

/-- **When all is handled** the whole group holds the newest stamp. -/
theorem Phase.quiet (h : Phase D x key T c) (hquiet : c.Quiet) (hy : y ∈ D.group x) :
    Reaches key T (c.node y).replica.store := by
  have hsent : ∀ z, c.Sent key T z → Reaches key T (c.node z).replica.store := by
    rintro z (hreach | ⟨p, hp, -⟩)
    · rwa [Replica.settled_of_idle (hquiet.2 z).log] at hreach
    · rw [hquiet.1] at hp
      cases hp
  -- a response that is still to come is a task or a message
  have hnone : ∀ {P z}, ¬ c.Expected x key P z := by
    rintro P z (hposted | ⟨p, hp, -⟩ | ⟨p, hp, -⟩)
    · rw [(hquiet.2 x).posted] at hposted
      cases hposted
    · rw [hquiet.1] at hp
      cases hp
    · rw [hquiet.1] at hp
      cases hp
  cases h with
  | spread all => exact hsent y (all y hy)
  | held own others =>
    by_cases hyx : y = x
    · subst hyx
      exact own
    · exact hsent y ((others y hy hyx).resolve_right hnone)
  | awaited own group other copy response => exact absurd response hnone

/-! ## The get -/

/-- What a get changes in a cluster at rest. -/
theorem step_get (hwired : Wired D c) (hmode : (D.config x).mode = .readRepair)
    (hquiet : c.Quiet) {requestor : Client} {msg : GetKey} {stamp : Timestamp} {uuid : String}
    (hstep : c.step codecs (.client x requestor (.getKey msg) stamp uuid) = some c') :
    Repairing D x msg.key c' ∧ .readRepair msg.key ∈ (c'.node x).posted ∧ c'.net = [] ∧
      c'.wire = c.wire ∧ ∀ y, (c'.node y).replica = (c.node y).replica := by
  -- the handler posts `read_repair` and one read task, and sends nothing yet
  obtain ⟨m, hnode, hnet, hwire, hreplica, hhints, hwrites, hposted⟩ :
      ∃ m, c'.node = Function.update c.node x m ∧ c'.net = c.net ∧ c'.wire = c.wire ∧
        m.replica = (c.node x).replica ∧ m.hintStrand = (c.node x).hintStrand ∧
        m.writeStrand = (c.node x).writeStrand ∧
        m.posted = (c.node x).posted ++ (c.node x).repairTasks msg.key := by
    cases steps_of_step hstep with
    | client unused handle =>
      cases Coordinator.acts_of_handle handle with
      | getOwn | getMany => exact ⟨_, rfl, List.append_nil _, rfl, rfl, rfl, rfl, rfl⟩
      | badRequest noGet => exact absurd rfl (noGet msg)
  have hown : m.posted = [.readRepair msg.key] := by
    rw [hposted, (hquiet.2 x).posted, Coordinator.repairTasks, hwired.config, if_pos hmode]
    rfl
  refine ⟨⟨hwired.step hstep, fun p hp => ?_, fun y => ?_⟩, ?_, hnet.trans hquiet.1, hwire, ?_⟩
  · rw [hnet, hquiet.1] at hp
    cases hp
  · refine forall_node_of_update (P := Waits x msg.key) hnode ?_ (fun y => ?_) y
    · have hidle := hquiet.2 x
      refine ⟨?_, hhints.trans hidle.hints, hwrites.trans hidle.writes, fun t ht => ?_,
        fun hne => absurd rfl hne⟩
      · rw [hreplica, hidle.log]
        exact List.not_mem_nil
      · rw [hown] at ht
        exact ⟨rfl, List.mem_singleton.mp ht⟩
    · have hidle := hquiet.2 y
      refine ⟨?_, hidle.hints, hidle.writes, fun t ht => ?_, fun _ => hidle.reads⟩
      · rw [hidle.log]
        exact List.not_mem_nil
      · rw [hidle.posted] at ht
        cases ht
  · rw [hnode, Function.update_self, hown]
    exact List.mem_cons_self
  · exact forall_node_of_update (P := fun y m => m.replica = (c.node y).replica) hnode hreplica
      fun _ => rfl

/-- **The invariant of a read repair.** -/
structure Converging (D : Deployment ι) (codec : Codec DoWrite) (x : ι) (key : UInt32)
    (T : Timestamp) (c : Cluster ι) : Prop where
  repairing : Repairing D x key c
  connected : c.Connected x
  bounded : Bounded D codec x key T c
  phase : Timestamp.zero < T → Phase D x key T c

/-- Every step of the draining run keeps the invariant. -/
theorem Converging.step (h : Converging D codecs.replica x key T c) (hT : Timestamp.zero ≤ T)
    {a : Action ι} (ha : Drains a) (hstep : c.step codecs a = some c') :
    Converging D codecs.replica x key T c' := by
  obtain ⟨hmove, hwire⟩ := h.repairing.moves_of_step ha hstep
  have hrepairing := h.repairing.step ha hstep
  have hgrows := grows_step hstep
  exact ⟨hrepairing, h.connected.of_wire h.repairing.wired hrepairing.wired hwire,
    h.bounded.move h.repairing.wired hT hmove hgrows, fun hpos =>
      (h.phase hpos).move h.repairing h.connected h.bounded hpos hmove hgrows⟩

omit [DecidableEq ι] in
/-- The newest stamp of the group. -/
theorem exists_newest (D : Deployment ι) (c : Cluster ι) (x : ι) (key : UInt32) :
    ∃ T, IsGreatest (c.stampOf key '' D.group x) T := by
  have hfinite : (D.group x).Finite := by
    -- addresses are distinct, so a finite list of them names finitely many servers
    have hreplicas : {y | (D.config y).address ∈ (D.config x).replicas}.Finite :=
      (List.finite_toSet (D.config x).replicas).preimage D.distinct.injOn
    exact (Set.finite_singleton x).union hreplicas
  obtain ⟨y, hy, hmax⟩ := Set.exists_max_image (D.group x) (c.stampOf key) hfinite ⟨x, Or.inl rfl⟩
  refine ⟨c.stampOf key y, ⟨y, hy, rfl⟩, ?_⟩
  rintro t ⟨z, hz, rfl⟩
  exact hmax z hz

/-- **The start.** The newest stamp is at the server, or its response is still to come. -/
theorem converging_get (hwired : Wired D c) (hquiet : c.Quiet)
    (hmode : (D.config x).mode = .readRepair) (hconnected : c.Connected x)
    {requestor : Client} {msg : GetKey} {stamp : Timestamp} {uuid : String}
    (hstamps : ∀ y ∈ D.group x, ∀ e, (c.node y).replica.store msg.key = some e →
      Timestamp.zero ≤ e.timestamp)
    (hT : IsGreatest (c.stampOf msg.key '' D.group x) T)
    (hstep : c.step codecs (.client x requestor (.getKey msg) stamp uuid) = some c') :
    Converging D codec x msg.key T c' := by
  obtain ⟨hrepairing, hposted, hnet, hwire, hreplica⟩ := step_get hwired hmode hquiet hstep
  have hlog : ∀ y, (c'.node y).replica.strand = [] := fun y => by
    rw [hreplica, (hquiet.2 y).log]
  refine ⟨hrepairing, hconnected.of_wire hwired hrepairing.wired hwire,
    ⟨fun y hy => ⟨fun k e he hk => ?_, fun m hm => ?_, Or.inl ?_⟩, ?_, ?_⟩, fun hpos => ?_⟩
  · subst hk
    rw [hreplica] at he
    refine ⟨hstamps y hy e he, ?_⟩
    rw [← stampOf_eq he]
    exact hT.2 ⟨y, hy, rfl⟩
  · rw [hlog] at hm
    cases hm
  · rw [hlog]
    exact List.not_mem_nil
  · rw [hnet]
    exact List.forall_mem_nil _
  · rw [hnet]
    exact fun _ => List.forall_mem_nil _
  · obtain ⟨⟨y, hy, hnewest⟩, -⟩ := hT
    have hcopy := (le_stampOf_iff hpos).mp hnewest.ge
    -- which of the two phases it is depends on the copy of `x`
    by_cases hown : Reaches msg.key T (c'.node x).replica.store
    · exact .held hown fun z _ _ => Or.inr (Or.inl hposted)
    · rw [← hreplica] at hcopy
      have hyx : y ≠ x := by
        rintro rfl
        exact hown hcopy
      refine .awaited ?_ hy hyx hcopy (Or.inl hposted)
      rw [Replica.settled_of_idle (hlog x)]
      exact hown

/-- **Read repair converges.** In a cluster at rest, a server in read-repair mode that is connected
to all its replicas answers a get. However the messages that result from it and the tasks of the
logs are interleaved, when all has been handled the server and its replicas have the newest of the
stamps that they had for the key, and hold an element with it unless it is zero. -/
theorem read_repair_converges (hwired : Wired D c) (hquiet : c.Quiet)
    (hmode : (D.config x).mode = .readRepair) (hconnected : c.Connected x)
    {requestor : Client} {msg : GetKey} {stamp : Timestamp} {uuid : String}
    (hstamps : ∀ y ∈ D.group x, ∀ e, (c.node y).replica.store msg.key = some e →
      Timestamp.zero ≤ e.timestamp)
    {as : List (Action ι)} (hdrains : ∀ a ∈ as, Drains a)
    (hrun : exec (step codecs) c (.client x requestor (.getKey msg) stamp uuid :: as) = some c')
    (hend : c'.Quiet) :
    ∃ T, IsGreatest (c.stampOf msg.key '' D.group x) T ∧ ∀ y ∈ D.group x,
      c'.stampOf msg.key y = T ∧
        (Timestamp.zero < T → ∃ e, (c'.node y).replica.store msg.key = some e ∧
          e.timestamp = T) := by
  obtain ⟨T, hT⟩ := exists_newest D c x msg.key
  obtain ⟨c₁, hget, hrest⟩ := exec_cons.mp hrun
  have hstart : Converging D codecs.replica x msg.key T c₁ :=
    converging_get hwired hquiet hmode hconnected hstamps hT hget
  -- `T` is the stamp of a copy or stands for a missing one
  have hzero : Timestamp.zero ≤ T := by
    have hbound : c.stampOf msg.key x ≤ T := hT.2 ⟨x, Or.inl rfl, rfl⟩
    refine le_trans ?_ hbound
    cases hheld : (c.node x).replica.store msg.key with
    | none => exact (stampOf_of_none hheld).ge
    | some e =>
      rw [stampOf_eq hheld]
      exact hstamps x (Or.inl rfl) e hheld
  have hinv : Converging D codecs.replica x msg.key T c' := by
    refine exec_inv_along ?_ hstart (along_of_mem fun a ha _ => hdrains a ha) hrest
    exact fun c a c' hc ha hstep => hc.step hzero ha hstep
  refine ⟨T, hT, fun y hy => ?_⟩
  -- with `T` zero there is nothing to spread: all stamps are zero already
  rcases hzero.eq_or_lt with rfl | hpos
  · have hstamp := hinv.bounded.copyOf le_rfl hy
    exact ⟨le_antisymm hstamp.2 hstamp.1, fun hlt => absurd hlt (lt_irrefl _)⟩
  · obtain ⟨e, he, hle⟩ := (hinv.phase hpos).quiet hend hy
    have hstamp : e.timestamp = T :=
      le_antisymm ((hinv.bounded.stocked y hy).store _ e he rfl).2 hle
    exact ⟨(stampOf_eq he).trans hstamp, fun _ => ⟨e, he, hstamp⟩⟩

end Steps

/-! ## A server without a copy -/

/-- The second server takes a put of the key 5; it is not connected to the first. -/
def secondPut : List (Action Bool) := repairOpening ++
  [.client true 1 (.putKey ⟨8, 5, "w", 1⟩) ⟨100, 0⟩ "t", .run true .log, .run true .write]

/-- The read repair of a get at the first. -/
def secondRepair : List (Action Bool) :=
  [.run false (.posted 0), .deliver 0, .deliver 0, .deliver 0, .run false .log]

/-- A second put reaches one of two servers only; a get repairs the other. -/
theorem read_repair_converges_pair : ∃ c c' : Cluster Bool,
    exec (step repairCodecs) repairStart secondPut = some c ∧
    exec (step repairCodecs) c
      (.client false 0 (.getKey ⟨7, 5, 1⟩) ⟨200, 0⟩ "g" :: secondRepair) = some c' ∧
    ∃ T, IsGreatest (c.stampOf 5 '' repairPair.group false) T ∧ ∀ y ∈ repairPair.group false,
      c'.stampOf 5 y = T ∧
        (Timestamp.zero < T → ∃ e, (c'.node y).replica.store 5 = some e ∧ e.timestamp = T) := by
  have hend : (exec (step repairCodecs) repairStart secondPut).any (fun c =>
      (c.net = [] ∧ (c.node false).Idle ∧ (c.node true).Idle ∧ c.Connected false ∧
      (c.node false).replica.store 5 = none ∧
      (c.node true).replica.store 5 = some ⟨"w", ⟨100, 0⟩⟩) ∧
      (exec (step repairCodecs) c
        (.client false 0 (.getKey ⟨7, 5, 1⟩) ⟨200, 0⟩ "g" :: secondRepair)).any (fun c =>
        c.net = [] ∧ (c.node false).Idle ∧ (c.node true).Idle) = true) = true := by
    decide +kernel
  obtain ⟨c, hrun, hc⟩ := (Option.any_eq_true _ _).mp hend
  obtain ⟨⟨hnet, hidle, hidle', hconnected, hfirst, hsecond⟩, hget⟩ := of_decide_eq_true hc
  obtain ⟨c', hrun', hc'⟩ := (Option.any_eq_true _ _).mp hget
  obtain ⟨hnet', hidle₁, hidle₁'⟩ := of_decide_eq_true hc'
  have hwired : Wired repairPair c := by
    refine exec_inv ?_ (wired_start repairPair firstCodec (fun _ => []) fun _ => []) hrun
    exact fun c a c' hc hstep => hc.step hstep
  have hstamps : ∀ y ∈ repairPair.group false, ∀ e, (c.node y).replica.store 5 = some e →
      Timestamp.zero ≤ e.timestamp := by
    intro y _ e he
    cases y with
    | false =>
      rw [hfirst] at he
      cases he
    | true =>
      obtain rfl := Option.some.inj (hsecond.symm.trans he)
      decide
  exact ⟨c, c', hrun, hrun', read_repair_converges hwired
    ⟨hnet, Bool.forall_bool.mpr ⟨hidle, hidle'⟩⟩ rfl hconnected hstamps (by decide) hrun'
    ⟨hnet', Bool.forall_bool.mpr ⟨hidle₁, hidle₁'⟩⟩⟩

end Cluster

end Cs457.Kv
