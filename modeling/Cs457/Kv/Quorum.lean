import Cs457.Kv.Events
import Cs457.Kv.Recovery
import Cs457.Lib.Transition

/-!
# Key-value store — quorum reads

A read with a consistency other than 1 goes through three stages: `handle_get` reads the own
copy and queues the start of the read; the start enters the read under a fresh uuid, with the
own copy as its only result; each ReadComplete for the uuid counts the entry down, and the
one that finds it at 1 sends the reply. No stage adds the copy in a ReadComplete to the
results, so the reply is the own copy.

* **`readStrand_step`** — what an event does to the read strand.
* **`readStrand_run`** — the strand is first-in first-out.
* **`Tracks.run`** — the entry of a read while it waits for its replies.
* **`quorum_read_iff`** — when the reply is the newest copy.
-/

namespace Cs457.Kv

open Transition

namespace Coordinator

def Event.isRunRead : Event → Bool
  | .runRead _ => true
  | _ => false

/-! ## The read strand -/

/-- **What an event does to the read strand.** `runRead` takes its first task; every other
event may append to it. -/
theorem readStrand_step {codecs : Codecs} {c c' : Coordinator} {ev : Event}
    (h : c.step codecs ev = some c') :
    (ev.isRunRead = true ∧ ∃ t, c.readStrand = t :: c'.readStrand) ∨
      (ev.isRunRead = false ∧ ∃ ts, c'.readStrand = c.readStrand ++ ts) := by
  obtain ⟨⟨c', es⟩, hhandle, rfl⟩ := Option.map_eq_some_iff.mp h
  cases acts_of_handle hhandle with
  | startRead head | completeRead head | answerRead head => exact Or.inl ⟨rfl, _, head⟩
  | getMany => exact Or.inr ⟨rfl, _, rfl⟩
  | readComplete => exact Or.inr ⟨rfl, _, rfl⟩
  | _ => exact Or.inr ⟨rfl, [], (List.append_nil _).symm⟩

/-- **The read strand is first-in first-out.** As long as no more tasks have run than waited,
the others are still at its front. Induction on the run. -/
theorem readStrand_run {codecs : Codecs} {evs : List Event} {c c' : Coordinator}
    (hrun : exec (step codecs) c evs = some c')
    (hle : evs.countP Event.isRunRead ≤ c.readStrand.length) :
    ∃ ts, c'.readStrand = c.readStrand.drop (evs.countP Event.isRunRead) ++ ts := by
  induction evs generalizing c with
  | nil =>
    obtain rfl := Option.some.inj hrun
    exact ⟨[], by simp⟩
  | cons ev evs ih =>
    obtain ⟨m, hm, hrest⟩ := exec_cons.mp hrun
    rcases readStrand_step hm with ⟨hev, t, hstrand⟩ | ⟨hev, ts, hts⟩
    · rw [List.countP_cons_of_pos hev, hstrand, List.length_cons] at hle
      obtain ⟨ts, hts⟩ := ih hrest (by omega)
      refine ⟨ts, ?_⟩
      rw [hts, List.countP_cons_of_pos hev, hstrand, List.drop_succ_cons]
    · rw [List.countP_cons_of_neg (by simp [hev])] at hle ⊢
      obtain ⟨ts', hts'⟩ := ih hrest (by
        rw [hts, List.length_append]
        omega)
      refine ⟨ts ++ ts', ?_⟩
      rw [hts', hts, List.drop_append_of_le_length hle, List.append_assoc]

/-! ## A read in progress -/

/-- The ReadComplete for `u` that the event handles. -/
def completedBy (u : String) (c : Coordinator) (ev : Event) : List ReadComplete :=
  match ev, c.readStrand with
  | .runRead _, .complete msg :: _ => if msg.uuid = u then [msg] else []
  | _, _ => []

/-- The ReadCompletes for `u` that a run handles. -/
def completed (codecs : Codecs) (u : String) : Coordinator → List Event → List ReadComplete
  | _, [] => []
  | c, ev :: evs => completedBy u c ev ++ match c.step codecs ev with
    | some c' => completed codecs u c' evs
    | none => []

/-- The read `u` of `requestor` has counted down `n` replies. -/
def Tracks (c : Coordinator) (u : String) (msg : GetKey) (requestor : Client) (own : Element)
    (n : ℕ) : Prop :=
  c.pendingReads.lookup u = some ⟨msg.stream, msg.key, msg.consistency - 1 - UInt32.ofNat n,
    requestor, [(own.timestamp, own.data)]⟩

/-- A step counts the completions for the get that it handles, and keeps its entry. -/
theorem Tracks.step {codecs : Codecs} {c c' : Coordinator} {ev : Event} {u : String}
    {msg : GetKey} {requestor : Client} {own : Element} {n : ℕ}
    (h : Tracks c u msg requestor own n) (hstep : c.step codecs ev = some c') :
    Tracks c' u msg requestor own (n + (completedBy u c ev).length) := by
  obtain ⟨⟨c', es⟩, hhandle, rfl⟩ := Option.map_eq_some_iff.mp hstep
  -- The missing `push_back`: a completed read lowers the count and leaves the one result.
  have hcount : ∀ {rc : ReadComplete} {rest : List ReadTask} {pending : PendingRead},
      c.readStrand = .complete rc :: rest → c.pendingReads.lookup rc.uuid = some pending →
      (c.pendingReads.insert rc.uuid
        { pending with consistency := pending.consistency - 1 }).lookup u
          = some ⟨msg.stream, msg.key,
            msg.consistency - 1 - UInt32.ofNat (n + (if rc.uuid = u then [rc] else []).length),
            requestor, [(own.timestamp, own.data)]⟩ := by
    intro rc rest pending hstrand hlook
    by_cases hu : rc.uuid = u
    · have hp : pending = _ := Option.some.inj (hlook.symm.trans (hu ▸ h))
      rw [if_pos hu, List.length_singleton, hu, AList.lookup_insert, hp, sub_ofNat_succ]
    · rw [if_neg hu, AList.lookup_insert_ne (Ne.symm hu)]
      exact h
  cases acts_of_handle hhandle with
  | startRead head =>
    simp only [completedBy, head, List.length_nil, Nat.add_zero]
    exact UnorderedMap.lookup_emplace_of_some h
  | completeRead head found | answerRead head found =>
    simp only [completedBy, head]
    exact hcount head found
  | _ => exact h

/-- **The entry of a read while it waits.** The results stay what the start put there; only
the count goes down. Induction on the run. -/
theorem Tracks.run {codecs : Codecs} {evs : List Event} {c c' : Coordinator} {u : String}
    {msg : GetKey} {requestor : Client} {own : Element} {n : ℕ}
    (h : Tracks c u msg requestor own n) (hrun : exec (Coordinator.step codecs) c evs = some c') :
    Tracks c' u msg requestor own (n + (completed codecs u c evs).length) := by
  induction evs generalizing c n with
  | nil =>
    obtain rfl := Option.some.inj hrun
    exact h
  | cons ev evs ih =>
    obtain ⟨m, hm, hrest⟩ := exec_cons.mp hrun
    have hlast := ih (h.step hm) hrest
    simp only [completed, hm, List.length_append, ← Nat.add_assoc]
    exact hlast

/-- The results of a read hold the own copy only, so the loop over them returns it. -/
theorem newest_singleton (x : Timestamp × String) : newest [x] = some x := by
  simp [newest]

/-! ## The reply -/

/-- **A read from its request to its reply.** The coordinator `c` receives `msg`; when the
tasks ahead of it in the strand are done, the start of the read runs and draws a uuid that is
not in use; later a ReadComplete for the uuid comes up and is answered with `resp`. `R` are
the ReadCompletes for the uuid that have been handled by then, the last one included. Before,
between and after these events anything may happen. -/
def Answered (codecs : Codecs) (c : Coordinator) (requestor : Client) (msg : GetKey)
    (R : List ReadComplete) (client : Client) (resp : GetKeyResp) : Prop :=
  ∃ stamp uuid c₁ waits c₂ u c₃ evs c₄ last rest u' c₅,
    c.step codecs (.client requestor (.getKey msg) stamp uuid) = some c₁ ∧
    exec (step codecs) c₁ waits = some c₂ ∧
    waits.countP Event.isRunRead = c.readStrand.length ∧
    u ∉ c₂.pendingReads ∧ c₂.step codecs (.runRead u) = some c₃ ∧
    exec (step codecs) c₃ evs = some c₄ ∧
    c₄.readStrand = .complete last :: rest ∧ last.uuid = u ∧
    R = completed codecs u c₃ evs ++ [last] ∧
    c₄.handle codecs (.runRead u') = some (c₅, [.reply client (.getKeyResp resp)])

/-- The copies that a read has seen: the own one and those in the ReadCompletes. -/
def copies (own : Element) (R : List ReadComplete) : List (Timestamp × String) :=
  (own.timestamp, own.data) :: R.map fun r => (r.timestamp, r.val)

/-- `val` goes with the greatest timestamp. -/
def IsNewest (entries : List (Timestamp × String)) (val : String) : Prop :=
  ∃ e ∈ entries, e.2 = val ∧ ∀ x ∈ entries, x.1 ≤ e.1

/-- No ReadComplete is newer than the own copy, or the newest of them has its value. -/
def OwnSuffices (own : Element) (R : List ReadComplete) : Prop :=
  (∀ r ∈ R, r.timestamp ≤ own.timestamp) ∨
    ∃ r ∈ R, r.val = own.data ∧ own.timestamp < r.timestamp ∧
      ∀ r' ∈ R, r'.timestamp ≤ r.timestamp

theorem isNewest_own_iff (own : Element) (R : List ReadComplete) :
    IsNewest (copies own R) own.data ↔ OwnSuffices own R := by
  constructor
  · rintro ⟨e, he, hval, hmax⟩
    have hR : ∀ r ∈ R, r.timestamp ≤ e.1 := fun r hr =>
      hmax (r.timestamp, r.val) (List.mem_cons_of_mem _ (List.mem_map_of_mem hr))
    have hown : own.timestamp ≤ e.1 := hmax _ List.mem_cons_self
    -- The newest copy is as new as the own one, or it is a newer one of the replies.
    rcases hown.eq_or_lt with heq | hlt
    · exact Or.inl fun r hr => heq ▸ hR r hr
    · rcases List.mem_cons.mp he with rfl | he
      · exact absurd hlt (lt_irrefl _)
      · obtain ⟨r, hr, rfl⟩ := List.mem_map.mp he
        exact Or.inr ⟨r, hr, hval, hlt, hR⟩
  · -- A bound on the own copy and on the replies bounds all the copies.
    have hcopies : ∀ t, own.timestamp ≤ t → (∀ r ∈ R, r.timestamp ≤ t) →
        ∀ x ∈ copies own R, x.1 ≤ t := by
      intro t hown hR x hx
      rcases List.mem_cons.mp hx with rfl | hx
      · exact hown
      · obtain ⟨r, hr, rfl⟩ := List.mem_map.mp hx
        exact hR r hr
    rintro (hR | ⟨r, hr, hval, hlt, hR⟩)
    · exact ⟨_, List.mem_cons_self, rfl, hcopies _ le_rfl hR⟩
    · exact ⟨(r.timestamp, r.val), List.mem_cons_of_mem _ (List.mem_map_of_mem hr), hval,
        hcopies _ hlt.le hR⟩

/-- The uuid of a read that starts is entered with the own copy as its only result. -/
theorem Tracks.start {codecs : Codecs} {c c₁ c₂ c₃ : Coordinator} {requestor : Client}
    {msg : GetKey} {stamp : Timestamp} {uuid u : String} {waits : List Event}
    (hget : c.step codecs (.client requestor (.getKey msg) stamp uuid) = some c₁)
    (hmany : msg.consistency ≠ 1) (hwaits : exec (Coordinator.step codecs) c₁ waits = some c₂)
    (hcount : waits.countP Event.isRunRead = c.readStrand.length)
    (hfresh : u ∉ c₂.pendingReads) (hstart : c₂.step codecs (.runRead u) = some c₃) :
    Tracks c₃ u msg requestor ((c.replica.store msg.key).getD missing) 0 := by
  obtain ⟨res, hhandle, rfl⟩ := Option.map_eq_some_iff.mp hget
  obtain ⟨c₁, es⟩ := res
  cases acts_of_handle hhandle with
  | getOwn _ hone => exact absurd hone hmany
  | badRequest noGet => exact absurd rfl (noGet msg)
  | getMany =>
    obtain ⟨ts, hts⟩ := readStrand_run hwaits (by
      rw [hcount, List.length_append]
      omega)
    rw [hcount, List.drop_left] at hts
    obtain ⟨⟨c₃, es⟩, hhandle₂, rfl⟩ := Option.map_eq_some_iff.mp hstart
    simp only [handle, hts, List.singleton_append] at hhandle₂
    cases toOption_eq_some hhandle₂
    rw [Tracks, show UInt32.ofNat 0 = 0 from rfl, UInt32.sub_zero]
    exact UnorderedMap.lookup_emplace_self hfresh

/-- A ReadComplete that is answered finds its entry at 1. -/
theorem reply_of_complete {codecs : Codecs} {c c' : Coordinator} {rc : ReadComplete}
    {rest : List ReadTask} {pending : PendingRead} {u : String} {client : Client}
    {resp : GetKeyResp} (hhead : c.readStrand = .complete rc :: rest)
    (hlook : c.pendingReads.lookup rc.uuid = some pending)
    (h : c.handle codecs (.runRead u) = some (c', [.reply client (.getKeyResp resp)])) :
    ∃ result, pending.consistency = 1 ∧ newest pending.results = some result ∧
      client = pending.requestor ∧ resp = ⟨pending.stream, pending.key, result.2⟩ := by
  generalize hes : [Effect.reply client (.getKeyResp resp)] = es at h
  cases acts_of_handle h with
  | startRead head => cases hhead.symm.trans head
  | completeRead => cases hes
  | answerRead head found last chosen =>
    cases hhead.symm.trans head
    cases hlook.symm.trans found
    cases hes
    exact ⟨_, last, chosen, rfl, rfl⟩

/-- **The reply is the own copy.** It goes to the client that asked, after as many
ReadCompletes as its consistency asks for, and carries the newest value exactly when the own
copy has it. -/
theorem quorum_read_iff {codecs : Codecs} {c : Coordinator} {requestor client : Client}
    {msg : GetKey} {R : List ReadComplete} {resp : GetKeyResp} (hmany : 2 ≤ msg.consistency)
    (h : Answered codecs c requestor msg R client resp) :
    client = requestor ∧ resp.stream = msg.stream ∧ resp.key = msg.key ∧
    R.length % 2 ^ 32 = msg.consistency.toNat - 1 ∧
    (IsNewest (copies ((c.replica.store msg.key).getD missing) R) resp.val ↔
      OwnSuffices ((c.replica.store msg.key).getD missing) R) := by
  obtain ⟨stamp, uuid, c₁, waits, c₂, u, c₃, evs, c₄, last, rest, u', c₅, hget, hwaits, hcount,
    hfresh, hstart, hevs, hhead, rfl, rfl, hreply⟩ := h
  have hne : msg.consistency ≠ 1 := by
    intro hone
    rw [hone] at hmany
    exact absurd hmany (by decide)
  -- The entry of the read holds the one result of this server, whatever completes.
  have htracks := (Tracks.start hget hne hwaits hcount hfresh hstart).run hevs
  rw [Nat.zero_add] at htracks
  obtain ⟨result, hone, hresult, rfl, rfl⟩ := reply_of_complete hhead htracks hreply
  rw [newest_singleton] at hresult
  obtain rfl := Option.some.inj hresult
  refine ⟨rfl, rfl, rfl, ?_, isNewest_own_iff _ _⟩
  simp only at hone
  rw [List.length_append, List.length_singleton]
  -- The count reaches 0 modulo `2 ^ 32`, which fixes the number of replies.
  have hnat := congrArg UInt32.toNat hone
  have hle : 2 ≤ msg.consistency.toNat := hmany
  have hlt := msg.consistency.toNat_lt
  simp only [UInt32.toNat_sub, UInt32.toNat_ofNat', UInt32.toNat_one] at hnat
  omega

/-! ## A stale reply -/

/-- A server with an empty store and one peer. -/
def oneReplica : Coordinator := .create ⟨"127.0.0.1", 9001, [("127.0.0.1", "9002")], .other⟩ [] []

/-- A read of the key 5 with consistency 2, answered when the peer's copy has come in. -/
theorem answered_lone (codecs : Codecs) :
    Answered codecs oneReplica 0 ⟨7, 5, 2⟩ [⟨"u", ⟨1, 0⟩, "new"⟩] 0 ⟨7, 5, ""⟩ :=
  ⟨.zero, "", _, [], _, "u", _, [.server (.outgoing 0) (.readComplete ⟨"u", ⟨1, 0⟩, "new"⟩)],
    _, _, _, "", _, rfl, rfl, rfl, by decide, rfl, rfl, rfl, rfl, rfl, rfl⟩

theorem quorum_read_iff_lone :
    IsNewest (copies missing [⟨"u", ⟨1, 0⟩, "new"⟩]) "" ↔
      OwnSuffices missing [⟨"u", ⟨1, 0⟩, "new"⟩] :=
  (quorum_read_iff (by decide) (answered_lone ⟨firstCodec, hintCodec⟩)).2.2.2.2

/-- The peer's copy is newer than the missing own one, and the reply does not have it. -/
theorem stale_read_lone :
    Answered ⟨firstCodec, hintCodec⟩ oneReplica 0 ⟨7, 5, 2⟩ [⟨"u", ⟨1, 0⟩, "new"⟩] 0 ⟨7, 5, ""⟩ ∧
    ¬ IsNewest (copies ((oneReplica.replica.store 5).getD missing) [⟨"u", ⟨1, 0⟩, "new"⟩]) "" := by
  refine ⟨answered_lone _, ?_⟩
  rintro ⟨e, he, hval, hmax⟩
  have hnew := hmax (⟨1, 0⟩, "new") (by simp [copies])
  simp only [copies, List.map_cons, List.map_nil, List.mem_cons, List.not_mem_nil,
    or_false] at he
  rcases he with rfl | rfl
  · exact absurd hnew (by decide)
  · exact absurd hval (by decide)

end Coordinator

end Cs457.Kv
