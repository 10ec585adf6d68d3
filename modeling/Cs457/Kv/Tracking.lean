import Cs457.Kv.Puts

/-!
# Key-value store — the invariant of a put

A put waits for its start in the coordinator's write strand; then it has an entry, which goes
down with every WriteComplete. Every server that has sent a WriteComplete has received the
record, and it is counted once: a put has at most one message or task for each of its replicas
at any time, a DoWrite that turns into a WriteComplete, then into a task, then is counted.

* **`Tracked.moves`** — every step keeps the invariant of every put.
* **`Sane.step`** — the invariant of the cluster, with the connections and the logs.
-/

namespace Cs457.Kv

open Transition

namespace Cluster

variable {ι : Type} {D : Deployment ι} {codec : Codec DoWrite} {c c' : Cluster ι} {P : Put ι}

/-! ## The invariant of one put -/

/-- The `s`-th replica of the coordinator has received the record. -/
def ReplicaReceived (D : Deployment ι) (codec : Codec DoWrite) (c : Cluster ι) (P : Put ι) (s : ℕ) :
    Prop :=
  ∃ z, (D.config P.node).replicas[s]? = some (D.config z).address ∧ ReceivedAt codec c z P.record

/-- A DoWrite of the put comes from its coordinator, a WriteComplete goes back there and comes
from a server that has received the record. -/
def FinePacket (codec : Codec DoWrite) (c : Cluster ι) (P : Put ι) (p : Packet ι) : Prop :=
  match p.msg with
  | .doWrite m => m.uuid = P.uuid →
    p.src = P.node ∧ Replica.logRecord m.key m.val m.timestamp = P.record
  | .writeComplete m => m.uuid = P.uuid → p.dst = P.node ∧ ReceivedAt codec c p.src P.record
  | _ => True

def FineTask (D : Deployment ι) (codec : Codec DoWrite) (c : Cluster ι) (P : Put ι) :
    WriteTask → Prop
  | .start msg requestor _ stamp => msg = P.msg ∧ requestor = P.requestor ∧ stamp = P.stamp
  | .complete _ s => ReplicaReceived D codec c P s

/-- A message of the put to or from its `s`-th replica. -/
def carries (D : Deployment ι) (P : Put ι) (s : ℕ) (p : Packet ι) : Bool :=
  match p.msg with
  | .doWrite m => m.uuid = P.uuid ∧ (D.config P.node).replicas[s]? = some (D.config p.dst).address
  | .writeComplete m =>
    m.uuid = P.uuid ∧ (D.config P.node).replicas[s]? = some (D.config p.src).address
  | _ => false

/-- A WriteComplete of the `s`-th replica that waits in the strand. -/
def completes (P : Put ι) (s : ℕ) : WriteTask → Bool
  | .complete m i => m.uuid = P.uuid ∧ i = s
  | .start _ _ _ _ => false

def starts (P : Put ι) : WriteTask → Bool
  | .start _ _ uuid _ => uuid = P.uuid
  | .complete _ _ => false

/-- The messages and tasks of a put that have to do with its `s`-th replica, with those that
are done. -/
def tokens (D : Deployment ι) (c : Cluster ι) (P : Put ι) (s : ℕ) : ℕ :=
  c.net.countP (carries D P s) + (c.node P.node).writeStrand.countP (completes P s)
    + c.acks.count (P.uuid, s)

/-- The WriteCompletes that have been counted. -/
def counted (c : Cluster ι) (u : String) : ℕ := c.acks.countP fun a => a.1 = u

/-- The start of the put is still in the strand. -/
structure Waiting (D : Deployment ι) (c : Cluster ι) (P : Put ι) : Prop where
  start : (c.node P.node).writeStrand.countP (starts P) = 1
  none : ∀ s, tokens D c P s = 0
  pending : P.uuid ∉ (c.node P.node).pendingWrites

/-- The put has an entry, which has been counted down. -/
structure Begun (c : Cluster ι) (P : Put ι) : Prop where
  start : (c.node P.node).writeStrand.countP (starts P) = 0
  entry : (c.node P.node).pendingWrites.lookup P.uuid = some ⟨P.msg.stream, P.msg.key,
    P.msg.consistency - 1 - UInt32.ofNat (counted c P.uuid), P.requestor⟩

/-- **The invariant of a put.** -/
structure Tracked (D : Deployment ι) (codec : Codec DoWrite) (c : Cluster ι) (P : Put ι) :
    Prop where
  regular : P.uuid ≠ "RR"
  packets : ∀ p ∈ c.net, FinePacket codec c P p
  tasks : ∀ y, ∀ t ∈ (c.node y).writeStrand, WriteTask.uuid t = P.uuid →
    y = P.node ∧ FineTask D codec c P t
  acked : ∀ s, (P.uuid, s) ∈ c.acks → ReplicaReceived D codec c P s
  own : ReceivedAt codec c P.node P.record
  once : ∀ s, tokens D c P s ≤ 1
  phase : Waiting D c P ∨ Begun c P

section Counting

variable {α : Type} [DecidableEq ι] {x y : ι} {t : α} {rest : List α}

/-- A strand to which a task may have been posted. -/
theorem countP_pushed (f : α → Bool) (l : List α) (t : α) (x y : ι) :
    (if y = x then l ++ [t] else l).countP f
      = l.countP f + if y = x ∧ f t = true then 1 else 0 := by
  by_cases hyx : y = x
  · simp [hyx, List.countP_append, List.countP_singleton]
  · simp [hyx]

/-- A strand whose first task may have run. -/
theorem countP_popped (f : α → Bool) (strand : ι → List α) (head : strand x = t :: rest) (y : ι) :
    (strand y).countP f
      = (if y = x then rest else strand y).countP f + if y = x ∧ f t = true then 1 else 0 := by
  by_cases hyx : y = x
  · simp [hyx, head, List.countP_cons]
  · simp [hyx]

/-- What is left was there. -/
theorem mem_of_popped (strand : ι → List α) (head : strand x = t :: rest) {a : α}
    (h : a ∈ if y = x then rest else strand y) : a ∈ strand y := by
  split at h
  · next hyx =>
    rw [hyx, head]
    exact List.mem_cons_of_mem t h
  · exact h

end Counting

section Preserved

variable (hgrow : ∀ y, ReceivedAt codec c y P.record → ReceivedAt codec c' y P.record)

include hgrow

/-- A replica that has received the record keeps it. -/
theorem ReplicaReceived.mono {s : ℕ} (h : ReplicaReceived D codec c P s) :
    ReplicaReceived D codec c' P s := by
  obtain ⟨z, hz, hreceived⟩ := h
  exact ⟨z, hz, hgrow z hreceived⟩

/-- So a message that says so stays true. -/
theorem FinePacket.mono {p : Packet ι} (h : FinePacket codec c P p) : FinePacket codec c' P p := by
  unfold FinePacket at h ⊢
  split
  · next m hm =>
    rw [hm] at h
    exact h
  · next m hm =>
    rw [hm] at h
    exact fun hu => ⟨(h hu).1, hgrow _ (h hu).2⟩
  · trivial

/-- And so does a task. -/
theorem FineTask.mono {t : WriteTask} (h : FineTask D codec c P t) : FineTask D codec c' P t := by
  cases t with
  | start msg requestor uuid stamp => exact h
  | complete m s => exact ReplicaReceived.mono hgrow h

omit hgrow in
/-- A step that does not start or count the put leaves it in its phase. -/
theorem phase_keep (h : Waiting D c P ∨ Begun c P)
    (hstart : (c'.node P.node).writeStrand.countP (starts P)
      = (c.node P.node).writeStrand.countP (starts P))
    (htokens : ∀ s, tokens D c' P s ≤ tokens D c P s)
    (hpending : (c'.node P.node).pendingWrites.lookup P.uuid
      = (c.node P.node).pendingWrites.lookup P.uuid)
    (hcounted : counted c' P.uuid = counted c P.uuid) : Waiting D c' P ∨ Begun c' P := by
  rcases h with ⟨hone, hnone, hfree⟩ | ⟨hzero, hentry⟩
  · refine Or.inl ⟨hstart.trans hone, fun s => Nat.le_zero.mp (hnone s ▸ htokens s), ?_⟩
    rw [← AList.lookup_eq_none] at hfree ⊢
    exact hpending.trans hfree
  · exact Or.inr ⟨hstart.trans hzero, by rw [hpending, hentry, hcounted]⟩

omit hgrow in
/-- A message of another put carries nothing of this one. -/
theorem carries_eq_false {p : Packet ι} (hregular : P.uuid ≠ "RR") (h : putOf p.msg ≠ some P.uuid)
    (s : ℕ) : carries D P s p = false := by
  unfold carries
  split
  · next m hm =>
    have hne : m.uuid ≠ P.uuid := by
      intro heq
      rw [hm, putOf, if_neg (heq ▸ hregular), heq] at h
      exact h rfl
    simp [hne]
  · next m hm =>
    have hne : m.uuid ≠ P.uuid := by
      intro heq
      rw [hm, putOf, heq] at h
      exact h rfl
    simp [hne]
  · rfl

omit hgrow in
/-- And says nothing of it. -/
theorem finePacket_of_ne {p : Packet ι} (hregular : P.uuid ≠ "RR") (h : putOf p.msg ≠ some P.uuid) :
    FinePacket codec c P p := by
  unfold FinePacket
  split
  · next m hm =>
    rw [hm] at h
    intro hu
    rw [putOf, if_neg (hu ▸ hregular), hu] at h
    exact absurd rfl h
  · next m hm =>
    rw [hm] at h
    intro hu
    rw [putOf, hu] at h
    exact absurd rfl h
  · trivial

/-- A step that neither starts the put nor counts one of its WriteCompletes keeps the invariant
when the messages and tasks of the put that it adds are fine. -/
theorem Tracked.keep (h : Tracked D codec c P)
    (packets : ∀ p ∈ c'.net, p ∈ c.net ∨ FinePacket codec c' P p)
    (tasks : ∀ y, ∀ t ∈ (c'.node y).writeStrand, WriteTask.uuid t = P.uuid →
      t ∈ (c.node y).writeStrand ∨ y = P.node ∧ FineTask D codec c' P t)
    (acked : ∀ s, (P.uuid, s) ∈ c'.acks → (P.uuid, s) ∈ c.acks)
    (htokens : ∀ s, tokens D c' P s ≤ tokens D c P s)
    (hstart : (c'.node P.node).writeStrand.countP (starts P)
      = (c.node P.node).writeStrand.countP (starts P))
    (hpending : (c'.node P.node).pendingWrites.lookup P.uuid
      = (c.node P.node).pendingWrites.lookup P.uuid)
    (hcounted : counted c' P.uuid = counted c P.uuid) : Tracked D codec c' P where
  regular := h.regular
  packets p hp := by
    rcases packets p hp with hp | hp
    · exact (h.packets p hp).mono hgrow
    · exact hp
  tasks y t ht hu := by
    rcases tasks y t ht hu with ht | ht
    · exact ⟨(h.tasks y t ht hu).1, (h.tasks y t ht hu).2.mono hgrow⟩
    · exact ht
  acked s hs := (h.acked s (acked s hs)).mono hgrow
  own := hgrow _ h.own
  once s := (htokens s).trans (h.once s)
  phase := phase_keep h.phase hstart htokens hpending hcounted

/-- A step that leaves the puts alone. -/
theorem Tracked.aside (h : Tracked D codec c P) (acks : c'.acks = c.acks)
    (strand : ∀ y, (c'.node y).writeStrand = (c.node y).writeStrand)
    (pending : ∀ y, (c'.node y).pendingWrites = (c.node y).pendingWrites)
    {old new : List (Packet ι)} (net : c'.net = old ++ new) (sub : List.Sublist old c.net)
    (apart : ∀ p ∈ new, Apart p.msg) : Tracked D codec c' P := by
  have hother : ∀ p ∈ new, putOf p.msg ≠ some P.uuid := fun p hp => by
    rw [putOf_of_apart (apart p hp)]
    exact nofun
  have htokens : ∀ s, tokens D c' P s ≤ tokens D c P s := by
    intro s
    have hnew : new.countP (carries D P s) = 0 := List.countP_eq_zero.mpr fun p hp => by
      simp [carries_eq_false h.regular (hother p hp)]
    have hold : old.countP (carries D P s) ≤ c.net.countP (carries D P s) := sub.countP_le
    rw [tokens, tokens, net, strand, acks, List.countP_append, hnew]
    omega
  refine h.keep hgrow (fun p hp => ?_) (fun y t ht _ => Or.inl (strand y ▸ ht))
    (fun s hs => acks ▸ hs) htokens (by rw [strand]) (by rw [pending])
    (by rw [counted, counted, acks])
  rcases List.mem_append.mp (net ▸ hp) with hp | hp
  · exact Or.inl (sub.subset hp)
  · exact Or.inr (finePacket_of_ne h.regular (hother p hp))

variable [DecidableEq ι]

/-- Another put is taken. -/
theorem Tracked.put (h : Tracked D codec c P) {put : Put ι} (hne : put.uuid ≠ P.uuid)
    (acks : c'.acks = c.acks) (net : c'.net = c.net)
    (strand : ∀ y, (c'.node y).writeStrand = if y = put.node
      then (c.node y).writeStrand ++ [.start put.msg put.requestor put.uuid put.stamp]
      else (c.node y).writeStrand)
    (pending : ∀ y, (c'.node y).pendingWrites = (c.node y).pendingWrites) :
    Tracked D codec c' P := by
  -- The put that is taken has another uuid, so no count of `P` sees its task.
  have hcountP : ∀ f : WriteTask → Bool,
      f (.start put.msg put.requestor put.uuid put.stamp) = false →
      (c'.node P.node).writeStrand.countP f = (c.node P.node).writeStrand.countP f := by
    intro f hf
    rw [strand, countP_pushed, hf]
    simp
  have htokens : ∀ s, tokens D c' P s = tokens D c P s := by
    intro s
    rw [tokens, tokens, net, acks, hcountP (completes P s) rfl]
  refine h.keep hgrow (fun p hp => Or.inl (net ▸ hp)) (fun y t ht hu => Or.inl ?_)
    (fun s hs => acks ▸ hs) (fun s => (htokens s).le)
    (hcountP (starts P) (by simp [starts, hne])) (by rw [pending])
    (by rw [counted, counted, acks])
  rw [strand] at ht
  split at ht
  · refine (List.mem_append.mp ht).resolve_right fun hlast => hne ?_
    rw [← hu, List.mem_singleton.mp hlast]
    rfl
  · exact ht

omit [DecidableEq ι] in
/-- A DoWrite is handled; the WriteComplete takes its place. -/
theorem Tracked.written (h : Tracked D codec c P) {p : Packet ι} {msg : DoWrite}
    (content : p.msg = .doWrite msg) (acks : c'.acks = c.acks)
    (strand : ∀ y, (c'.node y).writeStrand = (c.node y).writeStrand)
    (pending : ∀ y, (c'.node y).pendingWrites = (c.node y).pendingWrites)
    {old new : List (Packet ι)} (taken : List.Perm c.net (p :: old)) (net : c'.net = old ++ new)
    (single : new.length ≤ 1)
    (reply : ∀ q ∈ new, q.msg = .writeComplete ⟨msg.uuid⟩ ∧ q.src = p.dst ∧ q.dst = p.src)
    (received : ReceivedAt codec c' p.dst (Replica.logRecord msg.key msg.val msg.timestamp)) :
    Tracked D codec c' P := by
  -- the answer takes the place of the DoWrite
  have hsame : ∀ s, ∀ q ∈ new, carries D P s q = carries D P s p := by
    intro s q hq
    obtain ⟨hmsg, hsrc, _⟩ := reply q hq
    simp only [carries, hmsg, hsrc, content]
  have hnew : ∀ s, new.countP (carries D P s) ≤ if carries D P s p = true then 1 else 0 := by
    intro s
    by_cases hp : carries D P s p = true
    · rw [if_pos hp]
      exact List.countP_le_length.trans single
    · rw [if_neg hp, Nat.le_zero, List.countP_eq_zero]
      exact fun q hq hcarries => hp (hsame s q hq ▸ hcarries)
  have htokens : ∀ s, tokens D c' P s ≤ tokens D c P s := by
    intro s
    have hnet := taken.countP_eq (carries D P s)
    rw [List.countP_cons] at hnet
    have := hnew s
    rw [tokens, tokens, net, strand, acks, List.countP_append, hnet]
    omega
  refine h.keep hgrow (fun q hq => ?_) (fun y t ht _ => Or.inl (strand y ▸ ht))
    (fun s hs => acks ▸ hs) htokens (by rw [strand]) (by rw [pending])
    (by rw [counted, counted, acks])
  rcases List.mem_append.mp (net ▸ hq) with hq | hq
  · exact Or.inl (taken.symm.subset (List.mem_cons_of_mem p hq))
  · obtain ⟨hmsg, hsrc, hdst⟩ := reply q hq
    have hp := h.packets p (taken.symm.subset List.mem_cons_self)
    rw [FinePacket, content] at hp
    rw [FinePacket, hmsg, hsrc, hdst]
    refine Or.inr fun hu => ?_
    obtain ⟨hnode, hrecord⟩ := hp hu
    exact ⟨hnode, hrecord ▸ received⟩

/-- A WriteComplete is handled; a task of the coordinator takes its place. -/
theorem Tracked.done (h : Tracked D codec c P) {p : Packet ι} {msg : WriteComplete}
    (content : p.msg = .writeComplete msg) {id : ℕ}
    (sender : (D.config p.dst).replicas[id]? = some (D.config p.src).address)
    (acks : c'.acks = c.acks) (taken : List.Perm c.net (p :: c'.net))
    (strand : ∀ y, (c'.node y).writeStrand = if y = p.dst
      then (c.node y).writeStrand ++ [.complete msg id] else (c.node y).writeStrand)
    (pending : ∀ y, (c'.node y).pendingWrites = (c.node y).pendingWrites) :
    Tracked D codec c' P := by
  have htokens : ∀ s, tokens D c' P s ≤ tokens D c P s := by
    intro s
    have hnet := taken.countP_eq (carries D P s)
    rw [List.countP_cons] at hnet
    -- the acknowledgement is a task now and no longer a packet
    have htask : (if P.node = p.dst ∧ completes P s (.complete msg id) = true then 1 else 0)
        ≤ if carries D P s p = true then 1 else 0 := by
      split
      · next hcomplete =>
        obtain ⟨hnode, hcomplete⟩ := hcomplete
        simp only [completes, decide_eq_true_eq] at hcomplete
        obtain ⟨hu, rfl⟩ := hcomplete
        rw [if_pos]
        simp only [carries, content, decide_eq_true_eq]
        exact ⟨hu, hnode ▸ sender⟩
      · exact Nat.zero_le _
    rw [tokens, tokens, strand, acks, countP_pushed, hnet]
    omega
  have hstart : (c'.node P.node).writeStrand.countP (starts P)
      = (c.node P.node).writeStrand.countP (starts P) := by
    rw [strand, countP_pushed]
    simp [starts]
  refine h.keep hgrow
    (fun q hq => Or.inl (taken.symm.subset (List.mem_cons_of_mem p hq))) (fun y t ht hu => ?_)
    (fun s hs => acks ▸ hs) htokens hstart (by rw [pending]) (by rw [counted, counted, acks])
  rw [strand] at ht
  split at ht
  · next hy =>
    rcases List.mem_append.mp ht with ht | ht
    · exact Or.inl ht
    · obtain rfl := List.mem_singleton.mp ht
      have hp := h.packets p (taken.symm.subset List.mem_cons_self)
      rw [FinePacket, content] at hp
      obtain ⟨hnode, hreceived⟩ := hp hu
      exact Or.inr ⟨hy.trans hnode, p.src, hnode ▸ sender, hgrow _ hreceived⟩
  · exact Or.inl ht

/-- The task of another put starts. -/
theorem Tracked.started_other (h : Tracked D codec c P) {x : ι} {msg : PutKey} {requestor : Client}
    {uuid : String} {stamp : Timestamp} {rest : List WriteTask} (hne : uuid ≠ P.uuid)
    (head : (c.node x).writeStrand = .start msg requestor uuid stamp :: rest)
    (acks : c'.acks = c.acks) {new : List (Packet ι)} (net : c'.net = c.net ++ new)
    (strand : ∀ y, (c'.node y).writeStrand = if y = x then rest else (c.node y).writeStrand)
    {entry : PendingWrite}
    (pending : ∀ y, (c'.node y).pendingWrites = if y = x
      then (c.node y).pendingWrites.emplace uuid entry else (c.node y).pendingWrites)
    (sent : ∀ q ∈ new, q.src = x ∧ q.msg = .doWrite ⟨uuid, msg.key, stamp, msg.val⟩) :
    Tracked D codec c' P := by
  -- The put that is started has another uuid: neither its task nor its DoWrites count for `P`.
  have hcountP : ∀ f : WriteTask → Bool, f (.start msg requestor uuid stamp) = false →
      (c'.node P.node).writeStrand.countP f = (c.node P.node).writeStrand.countP f := by
    intro f hf
    rw [strand, countP_popped f (fun y => (c.node y).writeStrand) head P.node, hf]
    simp
  have hnew : ∀ s, new.countP (carries D P s) = 0 := fun s => List.countP_eq_zero.mpr fun q hq => by
    simp [carries, (sent q hq).2, hne]
  have htokens : ∀ s, tokens D c' P s = tokens D c P s := by
    intro s
    rw [tokens, tokens, net, acks, List.countP_append, hnew, hcountP (completes P s) rfl,
      Nat.add_zero]
  have hpending : (c'.node P.node).pendingWrites.lookup P.uuid
      = (c.node P.node).pendingWrites.lookup P.uuid := by
    rw [pending]
    split
    · exact UnorderedMap.lookup_emplace_ne hne.symm
    · rfl
  refine h.keep hgrow (fun q hq => ?_) (fun y t ht _ => ?_) (fun s hs => acks ▸ hs)
    (fun s => (htokens s).le) (hcountP (starts P) (by simp [starts, hne])) hpending
    (by rw [counted, counted, acks])
  · rcases List.mem_append.mp (net ▸ hq) with hq | hq
    · exact Or.inl hq
    · rw [FinePacket, (sent q hq).2]
      exact Or.inr fun hu => absurd hu hne
  · rw [strand] at ht
    exact Or.inl (mem_of_popped (fun y => (c.node y).writeStrand) head ht)

omit hgrow [DecidableEq ι] in
/-- Nothing has been counted of a put without tokens. -/
theorem counted_eq_zero (h : ∀ s, tokens D c P s = 0) : counted c P.uuid = 0 := by
  refine List.countP_eq_zero.mpr ?_
  rintro ⟨u, s⟩ ha hu
  obtain rfl : u = P.uuid := of_decide_eq_true hu
  have hpos : 0 < c.acks.count (P.uuid, s) := List.count_pos_iff.mpr ha
  have hzero := h s
  rw [tokens] at hzero
  omega

/-- The task of the put starts: it gets its entry, and the DoWrites are its first tokens. -/
theorem Tracked.started_self (h : Tracked D codec c P) {x : ι} {msg : PutKey} {requestor : Client}
    {stamp : Timestamp} {rest : List WriteTask}
    (head : (c.node x).writeStrand = .start msg requestor P.uuid stamp :: rest)
    (acks : c'.acks = c.acks) {new : List (Packet ι)} (net : c'.net = c.net ++ new)
    (strand : ∀ y, (c'.node y).writeStrand = if y = x then rest else (c.node y).writeStrand)
    (pending : ∀ y, (c'.node y).pendingWrites = if y = x
      then (c.node y).pendingWrites.emplace P.uuid
        ⟨msg.stream, msg.key, msg.consistency - 1, requestor⟩
      else (c.node y).pendingWrites)
    (sent : ∀ q ∈ new, q.src = x ∧ q.msg = .doWrite ⟨P.uuid, msg.key, stamp, msg.val⟩)
    (once : ∀ s : ℕ, new.countP (fun q => (D.config x).replicas[s]? = some (D.config q.dst).address)
      ≤ 1) : Tracked D codec c' P := by
  obtain ⟨rfl, rfl, rfl, rfl⟩ := h.tasks x (.start msg requestor P.uuid stamp)
    (head ▸ List.mem_cons_self) rfl
  have hstarts := countP_popped (starts P) (fun y => (c.node y).writeStrand) head P.node
  rw [← strand, if_pos ⟨rfl, decide_eq_true rfl⟩] at hstarts
  -- the put has not begun: its start is still there
  obtain ⟨hone, hnone, hfree⟩ : Waiting D c P := h.phase.resolve_right fun hbegun => by
    have := hbegun.start
    omega
  have hcarries : ∀ s, new.countP (carries D P s) ≤ 1 := fun s =>
    (List.countP_mono_left fun q hq hcarries => by
      simp only [carries, (sent q hq).2, decide_eq_true_eq, true_and] at hcarries
      exact decide_eq_true hcarries).trans (once s)
  have htokens : ∀ s, tokens D c' P s ≤ 1 := by
    intro s
    have hcompletes := countP_popped (completes P s) (fun y => (c.node y).writeStrand) head P.node
    rw [← strand] at hcompletes
    have hzero := hnone s
    have := hcarries s
    rw [tokens] at hzero
    rw [tokens, net, acks, List.countP_append]
    omega
  have hentry : (c'.node P.node).pendingWrites.lookup P.uuid
      = some ⟨P.msg.stream, P.msg.key, P.msg.consistency - 1, P.requestor⟩ := by
    rw [pending, if_pos rfl]
    exact UnorderedMap.lookup_emplace_self hfree
  have hcounted : counted c' P.uuid = 0 := by
    rw [counted, acks]
    exact counted_eq_zero hnone
  refine ⟨h.regular, fun q hq => ?_, fun y t ht hu => ?_,
    fun s hs => (h.acked s (acks ▸ hs)).mono hgrow, hgrow _ h.own, htokens,
    Or.inr ⟨by omega, ?_⟩⟩
  · rcases List.mem_append.mp (net ▸ hq) with hq | hq
    · exact (h.packets q hq).mono hgrow
    · rw [FinePacket, (sent q hq).2]
      exact fun _ => ⟨(sent q hq).1, rfl⟩
  · rw [strand] at ht
    obtain ⟨hy, hfine⟩ := h.tasks y t
      (mem_of_popped (fun y => (c.node y).writeStrand) head ht) hu
    exact ⟨hy, hfine.mono hgrow⟩
  · rw [hentry, hcounted]
    simp

/-- A WriteComplete of another put is counted. -/
theorem Tracked.completed_other (h : Tracked D codec c P) {x : ι} {msg : WriteComplete} {sender : ℕ}
    {rest : List WriteTask} (hne : msg.uuid ≠ P.uuid)
    (head : (c.node x).writeStrand = .complete msg sender :: rest)
    (acks : c'.acks = c.acks ++ [(msg.uuid, sender)]) (net : c'.net = c.net)
    (strand : ∀ y, (c'.node y).writeStrand = if y = x then rest else (c.node y).writeStrand)
    {entry : PendingWrite}
    (pending : ∀ y, (c'.node y).pendingWrites = if y = x
      then (c.node y).pendingWrites.insert msg.uuid entry else (c.node y).pendingWrites) :
    Tracked D codec c' P := by
  -- The WriteComplete that is counted has another uuid, so it is none of the tokens of `P`.
  have hcountP : ∀ f : WriteTask → Bool, f (.complete msg sender) = false →
      (c'.node P.node).writeStrand.countP f = (c.node P.node).writeStrand.countP f := by
    intro f hf
    rw [strand, countP_popped f (fun y => (c.node y).writeStrand) head P.node, hf]
    simp
  have htokens : ∀ s, tokens D c' P s = tokens D c P s := by
    intro s
    rw [tokens, tokens, net, acks, hcountP (completes P s) (by simp [completes, hne]),
      List.count_append, List.count_singleton]
    simp [hne]
  have hpending : (c'.node P.node).pendingWrites.lookup P.uuid
      = (c.node P.node).pendingWrites.lookup P.uuid := by
    rw [pending]
    split
    · exact AList.lookup_insert_ne hne.symm
    · rfl
  have hcounted : counted c' P.uuid = counted c P.uuid := by
    rw [counted, counted, acks, List.countP_append, List.countP_singleton]
    simp [hne]
  refine h.keep hgrow (fun q hq => Or.inl (net ▸ hq)) (fun y t ht _ => ?_) (fun s hs => ?_)
    (fun s => (htokens s).le) (hcountP (starts P) rfl) hpending hcounted
  · rw [strand] at ht
    exact Or.inl (mem_of_popped (fun y => (c.node y).writeStrand) head ht)
  · refine (List.mem_append.mp (acks ▸ hs)).resolve_right fun hlast => hne ?_
    exact (Prod.mk.inj (List.mem_singleton.mp hlast)).1.symm

/-- A WriteComplete of the put is counted. -/
theorem Tracked.completed_self (h : Tracked D codec c P) {x : ι} {msg : WriteComplete} {sender : ℕ}
    {rest : List WriteTask} (hu : msg.uuid = P.uuid)
    (head : (c.node x).writeStrand = .complete msg sender :: rest)
    (acks : c'.acks = c.acks ++ [(msg.uuid, sender)]) (net : c'.net = c.net)
    (strand : ∀ y, (c'.node y).writeStrand = if y = x then rest else (c.node y).writeStrand)
    {entry : PendingWrite} (found : (c.node x).pendingWrites.lookup msg.uuid = some entry)
    (pending : ∀ y, (c'.node y).pendingWrites = if y = x
      then (c.node y).pendingWrites.insert msg.uuid
        { entry with consistency := entry.consistency - 1 }
      else (c.node y).pendingWrites) :
    Tracked D codec c' P := by
  obtain ⟨rfl, hfine⟩ := h.tasks x (.complete msg sender) (head ▸ List.mem_cons_self) hu
  have hpopped : ∀ f : WriteTask → Bool, (c.node P.node).writeStrand.countP f
      = (c'.node P.node).writeStrand.countP f +
        if f (.complete msg sender) = true then 1 else 0 := by
    intro f
    have := countP_popped f (fun y => (c.node y).writeStrand) head P.node
    rw [← strand] at this
    simpa only [true_and] using this
  have htokens : ∀ s, tokens D c' P s = tokens D c P s := by
    intro s
    have hack : (if completes P s (.complete msg sender) = true then 1 else 0)
        = List.count (P.uuid, s) [(msg.uuid, sender)] := by
      simp [completes, hu, List.count_singleton]
    rw [tokens, tokens, net, acks, hpopped (completes P s), List.count_append, hack]
    omega
  -- the put has begun: a task of its `sender`-th replica is a token
  obtain ⟨hzero, hentry⟩ : Begun c P := h.phase.resolve_left fun hwaiting => by
    have htoken := hwaiting.none sender
    have htask : completes P sender (.complete msg sender) = true := decide_eq_true ⟨hu, rfl⟩
    rw [tokens, hpopped (completes P sender), if_pos htask] at htoken
    omega
  obtain rfl : entry = _ := Option.some.inj (found.symm.trans (hu ▸ hentry))
  refine ⟨h.regular, fun q hq => (h.packets q (net ▸ hq)).mono hgrow, fun y t ht hu => ?_,
    fun s hs => ?_, hgrow _ h.own, fun s => (htokens s).le.trans (h.once s), Or.inr ⟨?_, ?_⟩⟩
  · rw [strand] at ht
    obtain ⟨hy, hfine⟩ := h.tasks y t
      (mem_of_popped (fun y => (c.node y).writeStrand) head ht) hu
    exact ⟨hy, hfine.mono hgrow⟩
  · rcases List.mem_append.mp (acks ▸ hs) with hs | hs
    · exact (h.acked s hs).mono hgrow
    · rw [(Prod.mk.inj (List.mem_singleton.mp hs)).2]
      exact ReplicaReceived.mono hgrow hfine
  · have := hpopped (starts P)
    omega
  · have hcounted : counted c' P.uuid = counted c P.uuid + 1 := by
      rw [counted, counted, acks, List.countP_append, List.countP_singleton]
      simp [hu]
    rw [pending, if_pos rfl, hu, AList.lookup_insert, hcounted, Coordinator.sub_ofNat_succ]

end Preserved

/-- A put that is taken. -/
theorem Unseen.tracked [DecidableEq ι] (h : Unseen c P.uuid) (hregular : P.uuid ≠ "RR")
    (acks : c'.acks = c.acks) (net : c'.net = c.net)
    (strand : ∀ y, (c'.node y).writeStrand = if y = P.node
      then (c.node y).writeStrand ++ [.start P.msg P.requestor P.uuid P.stamp]
      else (c.node y).writeStrand)
    (pending : ∀ y, (c'.node y).pendingWrites = (c.node y).pendingWrites)
    (received : ReceivedAt codec c' P.node P.record) : Tracked D codec c' P := by
  -- the strand had no task of this uuid
  have hold : ∀ f : WriteTask → Bool, (∀ t, f t = true → WriteTask.uuid t = P.uuid) →
      (c.node P.node).writeStrand.countP f = 0 := fun f hf =>
    List.countP_eq_zero.mpr fun t ht hft => h.strand P.node t ht (hf t hft)
  have hcompletes : ∀ s t, completes P s t = true → WriteTask.uuid t = P.uuid := by
    intro s t ht
    cases t with
    | start => cases ht
    | complete m i => exact (of_decide_eq_true ht).1
  have hstarts : ∀ t, starts P t = true → WriteTask.uuid t = P.uuid := by
    intro t ht
    cases t with
    | start => exact of_decide_eq_true ht
    | complete => cases ht
  have htokens : ∀ s, tokens D c' P s = 0 := by
    intro s
    have hnet : c.net.countP (carries D P s) = 0 := List.countP_eq_zero.mpr fun p hp => by
      simp [carries_eq_false hregular (h.net p hp)]
    rw [tokens, net, acks, strand, countP_pushed, hnet, hold _ (hcompletes s),
      List.count_eq_zero.mpr (h.acks s)]
    simp [completes]
  refine ⟨hregular, fun p hp => finePacket_of_ne hregular (h.net p (net ▸ hp)), fun y t ht hu => ?_,
    fun s hs => absurd (acks ▸ hs) (h.acks s), received, fun s => (htokens s).trans_le zero_le_one,
    Or.inl ⟨?_, htokens, pending P.node ▸ h.pending P.node⟩⟩
  · rw [strand] at ht
    split at ht
    · next hy =>
      rcases List.mem_append.mp ht with ht | ht
      · exact absurd hu (h.strand y t ht)
      · obtain rfl := List.mem_singleton.mp ht
        exact ⟨hy, rfl, rfl, rfl⟩
    · exact absurd hu (h.strand y t ht)
  · rw [strand, countP_pushed, hold _ hstarts, if_pos ⟨rfl, decide_eq_true rfl⟩]

/-- **The invariant of the puts is kept by every step.** One case for each kind of step. -/
theorem Tracked.moves [DecidableEq ι] (htidy : Tidy c) (hmoves : Moves D codec c c')
    (hgrow : ∀ y m, ReceivedAt codec c y m → ReceivedAt codec c' y m)
    (h : ∀ P ∈ c.puts, Tracked D codec c P) : ∀ P ∈ c'.puts, Tracked D codec c' P := by
  have hkeep : ∀ {P : Put ι}, ∀ y, ReceivedAt codec c y P.record → ReceivedAt codec c' y P.record :=
    fun y => hgrow y _
  intro P hP
  -- A move concerns one put; each case asks whether that is `P`.
  cases hmoves with
  | aside puts acks strand pending old new net sub apart =>
    exact (h P (puts ▸ hP)).aside hkeep acks strand pending net sub apart
  | put put unused puts acks net strand pending received =>
    rcases List.mem_append.mp (puts ▸ hP) with hP | hP
    · exact (h P hP).put hkeep (unused.2 P hP).symm acks net strand pending
    · obtain rfl := List.mem_singleton.mp hP
      exact (htidy P.uuid unused.2).tracked unused.1 acks net strand pending received
  | written p msg content regular puts acks strand pending old new taken net single reply
      received =>
    exact (h P (puts ▸ hP)).written hkeep content acks strand pending taken net single reply
      received
  | done p msg content id sender puts acks taken strand pending =>
    exact (h P (puts ▸ hP)).done hkeep content sender acks taken strand pending
  | started x msg requestor uuid stamp rest head puts acks new net strand pending sent once =>
    by_cases hu : uuid = P.uuid
    · subst hu
      exact (h P (puts ▸ hP)).started_self hkeep head acks net strand pending sent once
    · exact (h P (puts ▸ hP)).started_other hkeep hu head acks net strand pending sent
  | completed x msg sender rest head puts acks net strand entry found pending =>
    by_cases hu : msg.uuid = P.uuid
    · exact (h P (puts ▸ hP)).completed_self hkeep hu head acks net strand found pending
    · exact (h P (puts ▸ hP)).completed_other hkeep hu head acks net strand pending

/-! ## The invariant of the cluster -/

structure Sane (D : Deployment ι) (codec : Codec DoWrite) (c : Cluster ι) : Prop where
  wired : Wired D c
  sound : ∀ y, (c.node y).replica.Sound codec
  tidy : Tidy c
  tracked : ∀ P ∈ c.puts, Tracked D codec c P

/-- At the start there are no puts. -/
theorem sane_start (D : Deployment ι) (codec : Codec DoWrite) (old : ι → List DoWrite)
    (hintFile : ι → List UInt8) : Sane D codec (start D codec old hintFile) where
  wired := wired_start D codec old hintFile
  sound y := ⟨old y, rfl⟩
  tidy := tidy_start D codec old hintFile
  tracked := nofun

/-- **Every step keeps the invariant.** -/
theorem Sane.step [DecidableEq ι] {codecs : Coordinator.Codecs} (h : Sane D codecs.replica c)
    {a : Action ι} (hstep : c.step codecs a = some c') : Sane D codecs.replica c' := by
  have hmoves := moves_of_step h.wired hstep
  exact ⟨h.wired.step hstep, fun y => (h.sound y).grows (grows_step hstep y), h.tidy.moves hmoves,
    Tracked.moves h.tidy hmoves (fun y m hm => hm.grows (h.sound y) (grows_step hstep y)) h.tracked⟩

end Cluster

end Cs457.Kv
