import Cs457.Kv.Versions
import Cs457.Kv.Recovery
import Cs457.Kv.HintCodec

/-!
# Key-value store — the puts of one coordinator

What the store of a coordinator holds for a key when every write of the key comes from its own
puts. A write is compared with the store, which lags behind the queued records, and compared
again when its task runs; `settled` is the store that the queue leads to, and it depends on
the order of the writes only.

* **`settled_write`**, **`settled_runTask`** — what a write and a task do to it.
* **`Tallied.step`** — the settled store is that of the puts applied in order.
* **`last_put_wins_iff`** — when the last put is the one that stays.
-/

namespace Cs457.Kv

open Transition

namespace Replica

/-- The store once all queued records have been applied. -/
def settled (r : Replica) : Store := storeRegister.apply r.store (queue r.strand)

variable {codec : Codec DoWrite} {r r' : Replica} {key : UInt32}

/-- **A write** is applied behind the queue. One that is dropped is covered by then too. -/
theorem settled_write {k : UInt32} {data : String} {timestamp : Timestamp}
    (h : r.write k data timestamp = .ok r') :
    r'.settled = storeRegister.put r.settled (logRecord k data timestamp) := by
  obtain ⟨-, ⟨hcovers, rfl⟩ | ⟨-, rfl⟩⟩ := write_ok h
  · exact (Register.put_of_covers (hcovers.apply _)).symm
  · show storeRegister.apply r.store (queue (r.strand ++ _)) = _
    rw [queue_append, Register.apply_append]
    rfl

/-- A replay queues the records that are new to the store, and nothing else. -/
theorem settled_replay {msgs : List DoWrite} (hkeys : ∀ m ∈ msgs, m.key ≠ key)
    (h : msgs.foldlM replayHandler r = .ok r') : r'.settled key = r.settled key := by
  induction msgs generalizing r with
  | nil =>
    cases h
    rfl
  | cons m msgs ih =>
    rw [List.foldlM_cons] at h
    obtain ⟨r₁, hr₁, h⟩ := Coordinator.bind_ok h
    rw [ih (fun x hx => hkeys x (List.mem_cons_of_mem m hx)) h, settled_write hr₁]
    exact Register.put_of_ne (R := storeRegister) (hkeys m List.mem_cons_self) _

/-- **A task of the log** applies the head of the queue. -/
theorem settled_runTask (hr : r.Replays codec fun m => m.key ≠ key)
    (h : r.runTask codec = some r') : r'.settled key = r.settled key := by
  obtain ⟨t, rest, hstrand, hperform⟩ := runTask_eq_some h
  cases t with
  | update m =>
    cases hperform
    show storeRegister.apply (updateTask codec _ m).store (queue rest) key = _
    rw [updateTask_store, settled, hstrand]
    rfl
  | replay =>
    rw [settled_replay (hr.reads hstrand) hperform, settled, settled, hstrand]
    rfl

end Replica

namespace Coordinator

/-- The record of a put of the key. -/
def putOf (key : UInt32) : Event → Option DoWrite
  | .client _ (.putKey msg) stamp _ =>
    if msg.key = key then some (Replica.logRecord msg.key msg.val stamp) else none
  | _ => none

/-- The record that a message of another server hands over for the key. -/
def receivedFor (key : UInt32) : Event → Option DoWrite
  | .server _ (.doWrite msg) =>
    if msg.key = key then some (Replica.logRecord msg.key msg.val msg.timestamp) else none
  | .server _ (.readRepairResponse msg) =>
    if msg.key = key then some (Replica.logRecord msg.key msg.val msg.timestamp) else none
  | _ => none

def putsOf (key : UInt32) (evs : List Event) : List DoWrite := evs.filterMap (putOf key)

/-- No other server writes the key: what comes back from them are puts from before. -/
def OnlyPuts (key : UInt32) (evs : List Event) : Prop :=
  ∀ before ev after, evs = before ++ ev :: after →
    ∀ m ∈ receivedFor key ev, m ∈ putsOf key before

/-- The record that an event hands over for the key. -/
def handedFor (key : UInt32) (ev : Event) : Option DoWrite := (putOf key ev).or (receivedFor key ev)

/-- A write of the server is one of the key or leaves it alone. -/
theorem settled_write_for {r r' : Replica} {k : UInt32} {data : String} {timestamp : Timestamp}
    (h : r.write k data timestamp = .ok r') (key : UInt32) :
    r'.settled key = storeRegister.apply r.settled
      (if k = key then some (Replica.logRecord k data timestamp) else none).toList key := by
  rw [Replica.settled_write h]
  split
  · rfl
  · next hk =>
    have hkey : storeRegister.key (Replica.logRecord k data timestamp) ≠ key := hk
    exact Register.put_of_ne hkey _

/-- The response to a read repair that the store covers changes nothing. -/
theorem settled_covered {c : Coordinator} {source : Chan} {msg : ReadRepairResponse}
    {copy : Element} (held : c.replica.store msg.key = some copy)
    (notNewer : msg.timestamp ≤ copy.timestamp) (key : UInt32) :
    c.replica.settled key = storeRegister.apply c.replica.settled
      (handedFor key (.server source (.readRepairResponse msg))).toList key := by
  have hcovers : storeRegister.Covers c.replica.store
      (Replica.logRecord msg.key msg.val msg.timestamp) := ⟨copy, held, notNewer⟩
  simp only [handedFor, putOf, receivedFor, Option.none_or]
  split
  · exact congrFun (Register.put_of_covers (hcovers.apply _)).symm key
  · rfl

/-- **What an event does to the settled store**: the record that it hands over comes last. -/
theorem settled_handle {codecs : Codecs} {key : UInt32} {c c' : Coordinator} {ev : Event}
    {es : List Effect} (hreplays : c.replica.Replays codecs.replica fun m => m.key ≠ key)
    (h : c.handle codecs ev = some (c', es)) :
    c'.replica.settled key = storeRegister.apply c.replica.settled (handedFor key ev).toList key ∧
      c'.replica.Replays codecs.replica fun m => m.key ≠ key := by
  -- Every event that hands over an element writes it; one that is not newer is covered by the copy
  -- held.
  cases acts_of_handle h with
  | put write =>
    simp only [handedFor, putOf, receivedFor, Option.or_none]
    exact ⟨settled_write_for write key, hreplays.write write⟩
  | doWrite sender write => exact ⟨settled_write_for write key, hreplays.write write⟩
  | repairNewer sender newer write =>
    exact ⟨settled_write_for write key, hreplays.write write⟩
  | repairOlder sender bound held notNewer =>
    exact ⟨settled_covered held notNewer key, hreplays⟩
  | repairSame sender bound held stamp => exact ⟨settled_covered held stamp.le key, hreplays⟩
  | runLog task =>
    exact ⟨Replica.settled_runTask hreplays task, Or.inl (hreplays.runTask task)⟩
  | @badRequest requestor msg stamp uuid text noGet noPut =>
    have hnone : handedFor key (.client requestor msg stamp uuid) = none := by
      cases msg with
      | putKey m => exact absurd rfl (noPut m)
      | _ => rfl
    rw [hnone]
    exact ⟨rfl, hreplays⟩
  | _ => exact ⟨rfl, hreplays⟩

/-- **The invariant of the puts.** -/
structure Tallied (codec : Codec DoWrite) (key : UInt32) (ps : List DoWrite) (c : Coordinator) :
    Prop where
  settled : c.replica.settled key = storeRegister.apply (fun _ => none) ps key
  replays : c.replica.Replays codec fun m => m.key ≠ key
  bound : ∀ m ∈ ps, key < 256

/-- A coordinator that has nothing of the key: its store has no element, no record waits, and
the log has none if it is still to be replayed. -/
def Untouched (codec : Codec DoWrite) (key : UInt32) (c : Coordinator) : Prop :=
  c.replica.store key = none ∧ (∀ m ∈ Replica.queue c.replica.strand, m.key ≠ key) ∧
    c.replica.Replays codec fun m => m.key ≠ key

variable {codecs : Codecs} {codec : Codec DoWrite} {key : UInt32} {ps : List DoWrite}
  {c c' : Coordinator}

/-- Before the first put nothing is tallied. -/
theorem Untouched.tallied (h : c.Untouched codec key) : c.Tallied codec key [] where
  settled := (Register.apply_of_ne (R := storeRegister) h.2.1 _).trans h.1
  replays := h.2.2
  bound := List.forall_mem_nil _

/-- A put that is handled has a key below 256. -/
theorem key_lt_of_put {ev : Event} {es : List Effect} (h : c.handle codecs ev = some (c', es))
    {m : DoWrite} (hput : putOf key ev = some m) : key < 256 := by
  unfold putOf at hput
  split at hput
  · split at hput
    · next hkey =>
      subst hkey
      cases acts_of_handle h with
      | put write => exact (Replica.write_ok write).1
      | badRequest noGet noPut => exact absurd rfl (noPut _)
    · cases hput
  · cases hput

/-- **One event.** A put comes last; what another server hands over is one of the puts before. -/
theorem Tallied.step (hc : c.Tallied codecs.replica key ps) {ev : Event} {es : List Effect}
    (h : c.handle codecs ev = some (c', es)) (honly : ∀ m ∈ receivedFor key ev, m ∈ ps) :
    c'.Tallied codecs.replica key (ps ++ (putOf key ev).toList) := by
  obtain ⟨hsettled, hreplays⟩ := settled_handle hc.replays h
  refine ⟨hsettled.trans ((Register.apply_congr hc.settled _).trans ?_), hreplays, fun m hm => ?_⟩
  · rw [handedFor]
    cases hput : putOf key ev with
    | some m => rw [Option.some_or, Register.apply_append]
    | none =>
      rw [Option.none_or, Option.toList_none, List.append_nil]
      cases hreceived : receivedFor key ev with
      | none => rfl
      | some m =>
        -- a repeat changes nothing
        have hmem : m ∈ ps := honly m hreceived
        exact congrFun (Register.put_of_covers (Register.covers_apply _ hmem)) key
  · rcases List.mem_append.mp hm with hold | hnew
    · exact hc.bound m hold
    · exact key_lt_of_put h (Option.mem_toList.mp hnew)

/-- **The run.** Induction from the end, as the side condition speaks of the puts before. -/
theorem Tallied.exec {c₀ : Coordinator} (h₀ : c₀.Untouched codecs.replica key) {evs : List Event}
    (honly : OnlyPuts key evs) (hrun : Transition.exec (Coordinator.step codecs) c₀ evs = some c) :
    c.Tallied codecs.replica key (putsOf key evs) := by
  induction evs using List.reverseRecOn generalizing c with
  | nil =>
    cases hrun
    exact h₀.tallied
  | append_singleton evs ev ih =>
    obtain ⟨m, hm, hstep⟩ := exec_append.mp hrun
    obtain ⟨c', hc', heq⟩ := exec_cons.mp hstep
    cases heq
    obtain ⟨⟨c', es⟩, hhandle, rfl⟩ := Option.map_eq_some_iff.mp hc'
    have hbefore : OnlyPuts key evs := by
      rintro before ev' after rfl
      exact honly before ev' (after ++ [ev]) (by simp)
    have hlast := (ih hbefore hm).step hhandle (honly evs ev [] rfl)
    have hputs : putsOf key (evs ++ [ev]) = putsOf key evs ++ (putOf key ev).toList := by
      unfold putsOf
      rw [List.filterMap_append, List.filterMap_cons, List.filterMap_nil]
      cases putOf key ev <;> rfl
    rwa [hputs]

/-- These are puts of the key. -/
theorem putsOf_key {evs : List Event} {m : DoWrite} (hm : m ∈ putsOf key evs) : m.key = key := by
  obtain ⟨ev, -, hev⟩ := List.mem_filterMap.mp hm
  unfold putOf at hev
  split at hev
  · split at hev
    · next hkey =>
      cases hev
      exact hkey
    · cases hev
  · cases hev

/-- **When the last put stays.** After any run of a coordinator that has had nothing of the key,
in which only its own puts write it and the clock does not go back, and whose log strand is
empty, the read of the key returns the value of the last put exactly when the first put with
the same reading of the clock has that value too. -/
theorem last_put_wins_iff {c₀ : Coordinator} (h₀ : c₀.Untouched codecs.replica key)
    {evs : List Event} (hrun : Transition.exec (Coordinator.step codecs) c₀ evs = some c)
    (honly : OnlyPuts key evs)
    (hclock : (putsOf key evs).Pairwise fun p q => p.timestamp ≤ q.timestamp)
    {last : DoWrite} (hlast : (putsOf key evs).getLast? = some last)
    (hdrained : c.replica.strand = []) :
    (∃ e, c.replica.read key = .ok (some e) ∧ e.data = last.val) ↔
      ∀ first ∈ (putsOf key evs).find? (fun p => p.timestamp = last.timestamp),
        first.val = last.val := by
  have htally := (Tallied.exec h₀ honly hrun).settled
  have hkey : key < 256 := (Tallied.exec h₀ honly hrun).bound last (List.mem_of_getLast? hlast)
  have hsorted := Register.apply_sorted (R := storeRegister) (s := fun _ => none) (k := key) rfl
    (fun m hm => putsOf_key hm) hclock hlast
  -- the first put with the last timestamp is the one that is stored
  have hheld : c.replica.store key = ((putsOf key evs).find?
      fun p => p.timestamp = last.timestamp).map storeRegister.entry := by
    rw [Replica.settled, hdrained] at htally
    refine htally.trans ?_
    convert hsorted
    · rfl
    · rfl
  obtain ⟨first, hfirst⟩ : ∃ first, (putsOf key evs).find?
      (fun p => p.timestamp = last.timestamp) = some first := by
    apply Option.isSome_iff_exists.mp
    exact List.find?_isSome.mpr ⟨last, List.mem_of_getLast? hlast, decide_eq_true rfl⟩
  rw [Replica.read, if_pos hkey, hheld, hfirst]
  constructor
  · rintro ⟨e, he, hdata⟩ first' hfirst'
    cases he
    cases hfirst'
    exact hdata
  · exact fun h => ⟨_, rfl, h first rfl⟩

/-! ## Two puts -/

/-- A server that has just started, with empty logs. -/
def lonely : Coordinator :=
  Coordinator.create ⟨"127.0.0.1", 9090, [], .readRepair⟩ [] []

theorem lonely_untouched (codec : Codec DoWrite) : lonely.Untouched codec 5 := by
  refine ⟨rfl, List.forall_mem_nil _, Or.inr ⟨[], rfl, List.not_mem_nil, ?_⟩⟩
  show ∀ m ∈ Log.replay codec [], m.key ≠ 5
  exact List.forall_mem_nil _

/-- The put of a value for the key 5 at the time of `firstWrite`. -/
def putNow (val : String) : Event := .client 0 (.putKey ⟨0, 5, val, 1⟩) ⟨100, 0⟩ val

/-- The same value is put twice before the log's tasks run. -/
def sameTwice : List Event := [.runLog, putNow "v", putNow "v", .runLog, .runLog]

theorem last_put_wins_iff_twice : ∃ c,
    Transition.exec (Coordinator.step ⟨firstCodec, hintProto⟩) lonely sameTwice = some c ∧
    ∃ e, c.replica.read 5 = .ok (some e) ∧ e.data = "v" := by
  obtain ⟨c, hrun, hdrained⟩ : ∃ c, Transition.exec (Coordinator.step ⟨firstCodec, hintProto⟩)
      lonely sameTwice = some c ∧ c.replica.strand = [] := ⟨_, rfl, rfl⟩
  have honly : OnlyPuts 5 sameTwice := by
    intro before ev after heq m hm
    have hev : ev ∈ sameTwice := heq ▸ List.mem_append_right _ List.mem_cons_self
    have hnone : ∀ ev ∈ sameTwice, receivedFor 5 ev = none := by decide
    rw [hnone ev hev] at hm
    cases hm
  refine ⟨c, hrun, ?_⟩
  have hclock : (putsOf 5 sameTwice).Pairwise fun p q => p.timestamp ≤ q.timestamp := by
    decide +kernel
  have hlast : (putsOf 5 sameTwice).getLast? = some firstWrite := by decide +kernel
  apply (last_put_wins_iff (lonely_untouched _) hrun honly hclock hlast hdrained).mpr
  intro first hfirst
  have hfound : (putsOf 5 sameTwice).find? (fun p => p.timestamp = firstWrite.timestamp)
      = some firstWrite := by decide +kernel
  rw [hfound] at hfirst
  obtain rfl := Option.mem_some_iff.mp hfirst
  rfl

/-- **A lost put.** The second of two puts in one tick of the clock is acknowledged and dropped. -/
theorem last_put_dropped : ∃ c,
    Transition.exec (Coordinator.step ⟨firstCodec, hintProto⟩) lonely
      [.runLog, putNow "v", .runLog, putNow "w", .runWrite, .runWrite] = some c ∧
    c.Idle ∧ c.replica.read 5 = .ok (some ⟨"v", ⟨100, 0⟩⟩) := by
  obtain ⟨c, hrun, hidle, hread⟩ : ∃ c,
      Transition.exec (Coordinator.step ⟨firstCodec, hintProto⟩) lonely
        [.runLog, putNow "v", .runLog, putNow "w", .runWrite, .runWrite] = some c ∧
      (c.replica.strand = [] ∧ c.hintStrand = [] ∧ c.writeStrand = [] ∧ c.readStrand = [] ∧
        c.posted = []) ∧ c.replica.read 5 = .ok (some ⟨"v", ⟨100, 0⟩⟩) :=
    ⟨_, rfl, ⟨rfl, rfl, rfl, rfl, rfl⟩, rfl⟩
  obtain ⟨hlog, hhints, hwrites, hreads, hposted⟩ := hidle
  exact ⟨c, hrun, ⟨hlog, hhints, hwrites, hreads, hposted⟩, hread⟩

end Coordinator

end Cs457.Kv
