import Cs457.Kv.Agreement

/-!
# Key-value store — catching up

The reconnect handler sends the stored elements of the keys that have hints. It reads the store and
the counters, which both run behind their logs; but when nothing waits in these, every put that the
replica has not acknowledged has a hint, and the store is as new. So a replica that gets what the
handler sends has all puts that its coordinator has taken until then.

* **`sent_by_reconnect`** — what the handler sends.
* **`Handed.step`** — it is on its way until the replica has taken it in.
* **`handoff_catches_up`** — the replica ends with an element as new as every put of the
  coordinator.
-/

namespace Cs457.Kv

open Transition

namespace Cluster

variable {ι : Type} [DecidableEq ι] {D : Deployment ι} {codecs : Coordinator.Codecs}
  {c c' : Cluster ι} {a : Action ι} {x y : ι} {i : ℕ}

/-- The step loses no message from `x` to `y`. -/
def Arrives (x y : ι) (c : Cluster ι) : Action ι → Prop
  | .lose n => ∀ p ∈ c.net[n]?, ¬ (p.src = x ∧ p.dst = y)
  | _ => True

instance Arrives.decidable (x y : ι) (c : Cluster ι) : ∀ a, Decidable (Arrives x y c a)
  | .lose n => inferInstanceAs (Decidable (∀ p ∈ c.net[n]?, _))
  | .client .. | .deliver _ | .connect .. | .run .. => isTrue trivial

/-- A put has a key below 256. -/
theorem key_lt_of_step (h : ∀ P ∈ c.puts, P.msg.key < 256) (hstep : c.step codecs a = some c') :
    ∀ P ∈ c'.puts, P.msg.key < 256 := by
  cases steps_of_step hstep with
  | @client x requestor msg stamp uuid m es unused handle =>
    intro P hP
    rcases List.mem_append.mp hP with hP | hP
    · exact h P hP
    · cases msg with
      | putKey msg =>
        obtain rfl := List.mem_singleton.mp hP
        cases Coordinator.acts_of_handle handle with
        | put write => exact (Replica.write_ok write).1
        | badRequest noGet noPut => exact absurd rfl (noPut msg)
      | _ => cases hP
  | _ => exact h

/-! ## What the handler sends -/

/-- A repair for `y` with the element `e` of the key is on its way from `x`, or `y` has taken its
record in. -/
def Handed (x y : ι) (k : UInt32) (e : Element) (c : Cluster ι) : Prop :=
  (∃ p ∈ c.net, p.src = x ∧ p.dst = y ∧ ∃ msg, p.msg = .doWrite msg ∧
    Replica.logRecord msg.key msg.val msg.timestamp = Replica.logRecord k e.data e.timestamp) ∨
  TakenAt c y (Replica.logRecord k e.data e.timestamp)

/-- **The handler runs.** Every key with a hint and a copy goes to the replica. -/
theorem sent_by_reconnect (hmode : (c.node x).config.mode = .hintedHandoff) {n l : ℕ}
    (htask : (c.node x).posted[n]? = some (.reconnected i)) (hwire : c.wire x i = some (y, l))
    (hstep : c.step codecs (.run x (.posted n)) = some c') {k : UInt32} (hk : k < 256)
    (hhint : (c.node x).hints i k ≠ 0) {e : Element} (he : (c.node x).replica.store k = some e) :
    Handed x y k e c' := by
  obtain ⟨⟨m, es⟩, hhandle, rfl⟩ := Option.map_eq_some_iff.mp hstep
  have hsend : Effect.send (.outgoing i) (.doWrite ⟨"RR", k, e.timestamp, e.data⟩) ∈ es := by
    cases Coordinator.acts_of_handle hhandle with
    | repair task => cases htask.symm.trans task
    | reconnected task bound =>
      cases htask.symm.trans task
      have hlt : k.toNat < 256 := hk
      rw [Coordinator.handoff, if_pos hmode]
      refine List.mem_cons_of_mem _ (List.mem_filterMap.mpr ⟨k.toNat, List.mem_range.mpr hlt, ?_⟩)
      rw [UInt32.ofNat_toNat, if_neg hhint, he]
      rfl
  refine Or.inl ⟨⟨x, y, .accepted l, .doWrite ⟨"RR", k, e.timestamp, e.data⟩⟩, ?_, rfl, rfl,
    _, rfl, rfl⟩
  refine List.mem_append_right _ (List.mem_filterMap.mpr ⟨_, hsend, ?_⟩)
  simp only [packet, hwire, Option.map_some]

/-- **On its way until it is taken in**: it is not lost, and the replica that handles it writes
it. -/
theorem Handed.step {k : UInt32} {e : Element} (h : Handed x y k e c) (harrives : Arrives x y c a)
    (hstep : c.step codecs a = some c') : Handed x y k e c' := by
  rcases h with ⟨p, hp, hsrc, hdst, msg, hmsg, hrecord⟩ | htaken
  · have hkeep : p ∈ c'.net → Handed x y k e c' := fun hp' =>
      Or.inl ⟨p, hp', hsrc, hdst, msg, hmsg, hrecord⟩
    have herased : ∀ {n q}, c.net[n]? = some q → p ∈ c.net.eraseIdx n ∨ p = q := by
      intro n q hq
      obtain ⟨hlt, rfl⟩ := List.getElem?_eq_some_iff.mp hq
      exact (List.mem_cons.mp ((List.getElem_cons_eraseIdx_perm hlt).mem_iff.mpr hp)).symm
    cases steps_of_step hstep with
    | client unused handle => exact hkeep (List.mem_append_left _ hp)
    | connect replica handle => exact hkeep (List.mem_append_left _ hp)
    | run handle => exact hkeep (List.mem_append_left _ hp)
    | @lose n bound =>
      have hq := List.getElem?_eq_getElem bound
      rcases herased hq with hp' | rfl
      · exact hkeep hp'
      · exact absurd ⟨hsrc, hdst⟩ (harrives _ hq)
    | @deliver n q m es get next handle =>
      rcases herased get with hp' | rfl
      · exact hkeep (List.mem_append_left _ hp')
      · -- the replica handles it
        refine Or.inr ?_
        rw [hmsg, hdst] at handle
        generalize hchan : p.chan = source at handle
        cases Coordinator.acts_of_handle handle with
        | doWrite sender write =>
          show (Function.update c.node p.dst _ y).replica.Taken _
          rw [hdst, Function.update_self, ← hrecord]
          exact Replica.taken_write write
  · exact Or.inr (htaken.step hstep)

/-! ## Every put of the coordinator -/

/-- The invariants of the puts of `x` and of its counter for a replica and key. -/
structure Handling (D : Deployment ι) (codec : Codec DoWrite) (x : ι) (i : ℕ) (k : UInt32)
    (c : Cluster ι) : Prop where
  sane : Sane D codec c
  vouched : ∀ P ∈ c.puts, Vouched D c P
  counted : Counted x i k c
  keys : ∀ P ∈ c.puts, P.msg.key < 256

/-- Every step keeps the invariant, part by part. -/
theorem Handling.step {k : UInt32} (h : Handling D codecs.replica x i k c)
    (hmode : (D.config x).mode = .hintedHandoff) (hi : i < Coordinator.hintsSize)
    (hstep : c.step codecs a = some c') : Handling D codecs.replica x i k c' where
  sane := h.sane.step hstep
  vouched := Vouched.step h.sane h.vouched hstep
  counted := h.counted.step h.sane hmode hi hstep
  keys := key_lt_of_step h.keys hstep

/-- A put that is not acknowledged has a hint, when the hint log is up to date. -/
theorem Counted.hint_ne_zero {k : UInt32} (h : Counted x i k c)
    (hstrand : (c.node x).hintStrand = []) {P : Put ι} (hP : P ∈ c.puts) (hx : P.node = x)
    (hkey : P.msg.key = k) (hacked : (P.uuid, i) ∉ c.acks) : (c.node x).hints i k ≠ 0 := by
  have hpos : 0 < c.puts.countP (owing x i k c.acks) :=
    List.countP_pos_iff.mpr ⟨P, hP, decide_eq_true ⟨hx, hkey, hacked⟩⟩
  have hbalance := h.balance
  rw [Coordinator.balance, hstrand, List.map_nil, List.sum_nil, add_zero] at hbalance
  omega

/-- **The replica catches up.** In hinted-handoff mode, with hint logs that are empty at the start,
the reconnect handler for one of the first three replicas runs when the logs of the coordinator are
up to date. Whatever has been lost before and whatever happens afterwards, as long as no message
from the coordinator to this replica is lost: when all of these have arrived and the log of the
replica is up to date, for every put that the coordinator had taken when the handler ran it finds an
element that is at least as new. -/
theorem handoff_catches_up (D : Deployment ι) (codecs : Coordinator.Codecs)
    (old : ι → List DoWrite) {x y : ι} {i : ℕ} (hmode : (D.config x).mode = .hintedHandoff)
    (hi : i < Coordinator.hintsSize) {as bs : List (Action ι)} {c c' : Cluster ι}
    (hrun : exec (step codecs) (start D codecs.replica old fun _ => []) as = some c) {n l : ℕ}
    (htask : (c.node x).posted[n]? = some (.reconnected i)) (hwire : c.wire x i = some (y, l))
    (hlog : (c.node x).replica.strand = []) (hhints : (c.node x).hintStrand = [])
    (harrives : Along (step codecs) (Arrives x y) c (.run x (.posted n) :: bs))
    (hrun' : exec (step codecs) c (.run x (.posted n) :: bs) = some c')
    (harrived : ∀ p ∈ c'.net, p.src = x → p.dst ≠ y) (hdone : (c'.node y).replica.strand = []) :
    ∀ P ∈ c.puts, P.node = x → Finds codecs c' y P.msg.key P.stamp := by
  rintro P hP rfl
  have hinv : Handling D codecs.replica P.node i P.msg.key c := by
    refine exec_inv (P := Handling D codecs.replica P.node i P.msg.key)
      (fun s a s' hs hstep => hs.step hmode hi hstep) ?_ hrun
    exact ⟨sane_start D codecs.replica old _, nofun, counted_start hmode old, nofun⟩
  have hwired := hinv.sane.wired
  have hreplica := hwired.accepted (hwired.wire hwire)
  -- what `y` has taken in, it finds in the end
  have hfinds : ∀ {m : DoWrite}, TakenAt c' y m → m.key = P.msg.key → P.stamp ≤ m.timestamp →
      Finds codecs c' y P.msg.key P.stamp := by
    intro m htaken hkey hle
    obtain ⟨e, he, hle'⟩ := htaken.resolve_left fun hqueued => by
      rw [Replica.Queued, hdone] at hqueued
      cases hqueued
    exact finds_of_held (hkey ▸ he) (hle.trans hle')
  by_cases hacked : (P.uuid, i) ∈ c.acks
  · obtain ⟨z, hz, htaken⟩ := (hinv.vouched P hP).acked i hacked
    obtain rfl := D.distinct (Option.some.inj (hreplica.symm.trans hz))
    exact hfinds (exec_inv (P := fun s => TakenAt s y P.record) (fun s a s' h hs => h.step hs)
      htaken hrun') rfl (le_refl _)
  · -- the coordinator has stored its own put, or an element at least as new
    obtain ⟨e, he, hle⟩ := (hinv.vouched P hP).own.resolve_left fun hqueued => by
      rw [Replica.Queued, hlog] at hqueued
      cases hqueued
    obtain ⟨c₁, hc₁, hrest⟩ := exec_cons.mp hrun'
    have hsent : Handed P.node y P.msg.key e c₁ :=
      sent_by_reconnect (hwired.config _ ▸ hmode) htask hwire hc₁ (hinv.keys P hP)
        (hinv.counted.hint_ne_zero hhints hP rfl rfl hacked) he
    have hlast : Handed P.node y P.msg.key e c' :=
      exec_inv_along (fun s a s' h ha hs => h.step ha hs) hsent (harrives.2 c₁ hc₁) hrest
    rcases hlast with ⟨p, hp, hsrc, hdst, -⟩ | htaken
    · exact absurd hdst (harrived p hp hsrc)
    · exact hfinds htaken rfl hle

/-- The DoWrite of a put is lost with its connection; the handler of the next one runs. -/
theorem handoff_catches_up_trio : ∃ c c',
    exec (step trioCodecs) trioStart (handedOffPut.take 15) = some c ∧
    exec (step trioCodecs) c
      [.run false (.posted 0), .deliver 0, .deliver 0, .run true .log] = some c' ∧
    ∀ P ∈ c.puts, P.node = false → Finds trioCodecs c' true P.msg.key P.stamp := by
  have hmiddle : (exec (step trioCodecs) trioStart (handedOffPut.take 15)).any (fun c =>
      (c.node false).posted[0]? = some (.reconnected 0) ∧ c.wire false 0 = some (true, 1) ∧
      (c.node false).replica.strand = [] ∧ (c.node false).hintStrand = [] ∧
      Along (step trioCodecs) (Arrives false true) c
        [.run false (.posted 0), .deliver 0, .deliver 0, .run true .log] ∧
      (exec (step trioCodecs) c
        [.run false (.posted 0), .deliver 0, .deliver 0, .run true .log]).any (fun c' =>
          (∀ p ∈ c'.net, p.src = false → p.dst ≠ true) ∧ (c'.node true).replica.strand = []))
      = true := by
    decide +kernel
  obtain ⟨c, hrun, hc⟩ := (Option.any_eq_true _ _).mp hmiddle
  obtain ⟨htask, hwire, hlog, hhints, harrives, hend⟩ := of_decide_eq_true hc
  obtain ⟨c', hrun', hc'⟩ := (Option.any_eq_true _ _).mp hend
  obtain ⟨harrived, hdone⟩ := of_decide_eq_true hc'
  exact ⟨c, c', hrun, hrun', handoff_catches_up trio trioCodecs (fun _ => []) rfl (by decide) hrun
    htask hwire hlog hhints harrives hrun' harrived hdone⟩

end Cluster

end Cs457.Kv
