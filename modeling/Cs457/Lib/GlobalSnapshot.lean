import Cs457.Lib.Ledger
import Mathlib.Logic.Relation

/-!
# Global snapshots over first-in first-out links

Processes hold amounts, send parts of them over directed links and receive them in order.
A snapshot is taken by markers: a process records its balance when it starts the snapshot or
when the first marker reaches it, sends a marker on every outgoing link, and from then on
counts what it receives on each incoming link until that link's own marker arrives.

The number that every step keeps is the **cut**: for each process its recorded balance, or
its current one while it has not recorded, and for each link what has been counted so far
plus what is still ahead of the marker. Before the snapshot the cut is the total amount in
the system; when every process has recorded and every marker has arrived it is exactly what
the snapshot reports.

Amounts are added modulo `m` (no wrap-around for `m = 0`), so all laws hold up to wraps
(`WrapLe`), and exactly when the total fits below `m`.
-/

namespace GlobalSnapshot

/-- What travels on a link. -/
inductive Packet where
  | amount (a : ℕ)
  | marker
  deriving DecidableEq, Repr

/-- The amounts ahead of the first marker of a link. -/
def beforeMarker : List Packet → ℕ
  | [] => 0
  | .amount a :: l => a + beforeMarker l
  | .marker :: _ => 0

/-- All amounts on a link. -/
def amounts : List Packet → ℕ
  | [] => 0
  | .amount a :: l => a + amounts l
  | .marker :: l => amounts l

/-- The number of markers on a link. -/
def markers : List Packet → ℕ
  | [] => 0
  | .amount _ :: l => markers l
  | .marker :: l => markers l + 1

theorem amounts_append (l l' : List Packet) : amounts (l ++ l') = amounts l + amounts l' := by
  induction l with
  | nil => simp [amounts]
  | cons x l ih =>
    cases x with
    | amount a => simp only [List.cons_append, amounts, ih]; omega
    | marker => simpa only [List.cons_append, amounts] using ih

theorem markers_append (l l' : List Packet) : markers (l ++ l') = markers l + markers l' := by
  induction l with
  | nil => simp [markers]
  | cons x l ih =>
    cases x with
    | amount a => simpa only [List.cons_append, markers] using ih
    | marker => simp only [List.cons_append, markers, ih]; omega

/-- Without a marker on the link, everything is ahead of the marker to come. -/
theorem beforeMarker_append_unmarked {l : List Packet} (h : markers l = 0) (l' : List Packet) :
    beforeMarker (l ++ l') = beforeMarker l + beforeMarker l' := by
  induction l with
  | nil => simp [beforeMarker]
  | cons x l ih =>
    cases x with
    | amount a => rw [List.cons_append, beforeMarker, beforeMarker, ih h, Nat.add_assoc]
    | marker => simp [markers] at h

/-- What is sent behind a marker is not ahead of it. -/
theorem beforeMarker_append_marked {l : List Packet} (h : markers l ≠ 0) (l' : List Packet) :
    beforeMarker (l ++ l') = beforeMarker l := by
  induction l with
  | nil => exact absurd rfl h
  | cons x l ih =>
    cases x with
    | amount a => rw [List.cons_append, beforeMarker, beforeMarker, ih h]
    | marker => rfl

/-- A marker at the end of a link hides nothing. -/
theorem beforeMarker_append_marker (l : List Packet) :
    beforeMarker (l ++ [.marker]) = beforeMarker l := by
  induction l with
  | nil => rfl
  | cons x l ih =>
    cases x with
    | amount a => rw [List.cons_append, beforeMarker, beforeMarker, ih]
    | marker => rfl

/-- Without a marker, all amounts of a link are before the marker to come. -/
theorem beforeMarker_eq_amounts {l : List Packet} (h : markers l = 0) :
    beforeMarker l = amounts l := by
  induction l with
  | nil => rfl
  | cons x l ih =>
    cases x with
    | amount a =>
      rw [beforeMarker, amounts, ih h]
    | marker => simp [markers] at h

/-! ## States and steps -/

/-- `transit p q` is what `q` has counted on the link from `p` since it recorded, and
`closed p q` says that the marker of that link has reached `q`. -/
structure State (P : Type*) where
  balance : P → ℕ
  link : P → P → List Packet
  recorded : P → Option ℕ
  transit : P → P → ℕ
  closed : P → P → Bool

variable {P : Type*}

namespace State

section Operations

variable [DecidableEq P]

def send (s : State P) (p q : P) (a : ℕ) : State P :=
  { s with
    balance := fun x => if x = p then s.balance p - a else s.balance x
    link := fun x y => if x = p ∧ y = q then s.link p q ++ [.amount a] else s.link x y }

/-- `q` takes the amount `a` off the link from `p`, whose rest is `l`. -/
def receive (s : State P) (m : ℕ) (p q : P) (a : ℕ) (l : List Packet) : State P :=
  { s with
    balance := fun x => if x = q then (s.balance q + a) % m else s.balance x
    link := fun x y => if x = p ∧ y = q then l else s.link x y
    transit := fun x y =>
      if x = p ∧ y = q ∧ (s.recorded q).isSome ∧ s.closed p q = false then
        (s.transit p q + a) % m
      else s.transit x y }

/-- `p` records its balance, starts counting on its incoming links and sends a marker on
each outgoing one. -/
def record (s : State P) (N : Finset P) (p : P) : State P :=
  { s with
    link := fun x y => if x = p ∧ y ∈ N ∧ y ≠ p then s.link p y ++ [.marker] else s.link x y
    recorded := fun x => if x = p then some (s.balance p) else s.recorded x
    transit := fun x y => if y = p then 0 else s.transit x y
    closed := fun x y => if y = p then false else s.closed x y }

/-- `q` takes the marker off the link from `p`, whose rest is `l`. -/
def close (s : State P) (p q : P) (l : List Packet) : State P :=
  { s with
    link := fun x y => if x = p ∧ y = q then l else s.link x y
    closed := fun x y => if x = p ∧ y = q then true else s.closed x y }

end Operations

/-- The total in the system: all balances and everything in flight. -/
def total (s : State P) (N : Finset P) : ℕ := ledger N s.balance fun p q => amounts (s.link p q)

/-- What the cut counts on the link from `p` to `q`. -/
def cutLink (s : State P) (p q : P) : ℕ :=
  (bif (s.recorded q).isSome then s.transit p q else 0)
    + bif s.closed p q then 0 else beforeMarker (s.link p q)

/-- The cut: recorded balances, or current ones, and for each link what has been counted
and what is still ahead of its marker. -/
def cut (s : State P) (N : Finset P) : ℕ :=
  ledger N (fun p => (s.recorded p).getD (s.balance p)) s.cutLink

/-- What the finished snapshot reports. -/
def reported (s : State P) (N : Finset P) : ℕ :=
  ledger N (fun p => (s.recorded p).getD 0) s.transit

/-- Every process has recorded and every link has delivered its marker. -/
def Complete (s : State P) (N : Finset P) : Prop :=
  (∀ p ∈ N, (s.recorded p).isSome) ∧ ∀ p ∈ N, ∀ q ∈ N, p ≠ q → s.closed p q = true

/-- No process has recorded and no marker is on its way. -/
structure Idle (s : State P) (N : Finset P) : Prop where
  unrecorded : ∀ p ∈ N, s.recorded p = none
  unclosed : ∀ p ∈ N, ∀ q ∈ N, p ≠ q → s.closed p q = false
  unmarked : ∀ p ∈ N, ∀ q ∈ N, p ≠ q → markers (s.link p q) = 0

end State

/-- One step of the processes `N`, with amounts added modulo `m`. -/
inductive Step [DecidableEq P] (N : Finset P) (m : ℕ) : State P → State P → Prop where
  | send {s : State P} {p q : P} {a : ℕ} (hp : p ∈ N) (hq : q ∈ N) (hpq : p ≠ q)
      (ha : a ≤ s.balance p) : Step N m s (s.send p q a)
  | receive {s : State P} {p q : P} {a : ℕ} {l : List Packet} (hp : p ∈ N) (hq : q ∈ N)
      (hpq : p ≠ q) (hl : s.link p q = .amount a :: l) : Step N m s (s.receive m p q a l)
  | start {s : State P} {p : P} (hp : p ∈ N) (hr : s.recorded p = none) :
      Step N m s (s.record N p)
  | marker {s : State P} {p q : P} {l : List Packet} (hp : p ∈ N) (hq : q ∈ N)
      (hpq : p ≠ q) (hr : (s.recorded q).isSome) (hl : s.link p q = .marker :: l) :
      Step N m s (s.close p q l)

/-! ## The marker discipline

Each link carries at most one marker in its life, sent when its source records and taken off
when the link closes. -/

structure Disciplined (s : State P) (N : Finset P) : Prop where
  marked : ∀ p ∈ N, ∀ q ∈ N, p ≠ q →
    markers (s.link p q) + (s.closed p q).toNat = (s.recorded p).isSome.toNat
  closed_recorded : ∀ p ∈ N, ∀ q ∈ N, p ≠ q → s.closed p q = true → (s.recorded q).isSome

/-- A state without markers and records is disciplined. -/
theorem State.Idle.disciplined {s : State P} {N : Finset P} (h : s.Idle N) :
    Disciplined s N where
  marked p hp q hq hpq := by
    rw [h.unmarked p hp q hq hpq, h.unclosed p hp q hq hpq, h.unrecorded p hp]
    rfl
  closed_recorded p hp q hq hpq hc := by
    rw [h.unclosed p hp q hq hpq] at hc
    cases hc

/-- A process that has not recorded has no closed incoming link. -/
theorem Disciplined.not_closed {N : Finset P} {s : State P} (h : Disciplined s N) {p q : P}
    (hp : p ∈ N) (hq : q ∈ N) (hpq : p ≠ q) (hr : s.recorded q = none) :
    s.closed p q = false := by
  by_contra hc
  have := h.closed_recorded p hp q hq hpq (by simpa using hc)
  rw [hr] at this
  cases this

section Steps

variable [DecidableEq P]

/-! ### Markers on the links -/

/-- Sending an amount adds no marker. -/
theorem State.markers_send (s : State P) (p q : P) (a : ℕ) (x y : P) :
    markers ((s.send p q a).link x y) = markers (s.link x y) := by
  by_cases he : x = p ∧ y = q
  · obtain ⟨rfl, rfl⟩ := he
    simp only [State.send, and_self, if_true, markers_append, markers, Nat.add_zero]
  · simp only [State.send, he, if_false]

/-- Receiving one takes none. -/
theorem State.markers_receive {s : State P} (m : ℕ) {p q : P} {a : ℕ} {l : List Packet}
    (hl : s.link p q = .amount a :: l) (x y : P) :
    markers ((s.receive m p q a l).link x y) = markers (s.link x y) := by
  by_cases he : x = p ∧ y = q
  · obtain ⟨rfl, rfl⟩ := he
    rw [hl, markers]
    simp only [State.receive, and_self, if_true]
  · simp only [State.receive, he, if_false]

/-- Amounts may travel while no snapshot is under way. -/
theorem State.Idle.send {N : Finset P} {s : State P} (h : s.Idle N) (p q : P) (a : ℕ) :
    (s.send p q a).Idle N where
  unrecorded := h.unrecorded
  unclosed := h.unclosed
  unmarked x hx y hy hxy := by
    rw [State.markers_send]
    exact h.unmarked x hx y hy hxy

/-- An idle system stays idle when amounts are received. -/
theorem State.Idle.receive {N : Finset P} {s : State P} (h : s.Idle N) (m : ℕ) {p q : P} {a : ℕ}
    {l : List Packet} (hl : s.link p q = .amount a :: l) : (s.receive m p q a l).Idle N where
  unrecorded := h.unrecorded
  unclosed := h.unclosed
  unmarked x hx y hy hxy := by
    rw [State.markers_receive m hl]
    exact h.unmarked x hx y hy hxy

/-- Every step keeps the discipline: on each link the marker comes once, after its sender has
recorded. -/
theorem Disciplined.step {N : Finset P} {m : ℕ} {s t : State P} (h : Disciplined s N)
    (hst : Step N m s t) : Disciplined t N := by
  -- Amounts are no Markers, so sending and receiving them leaves the count of each link.
  cases hst with
  | @send p q a hp hq hpq ha =>
    refine ⟨fun x hx y hy hxy => ?_, h.closed_recorded⟩
    rw [State.markers_send]
    exact h.marked x hx y hy hxy
  | @receive p q a l hp hq hpq hl =>
    refine ⟨fun x hx y hy hxy => ?_, h.closed_recorded⟩
    rw [State.markers_receive m hl]
    exact h.marked x hx y hy hxy
  | @start p hp hr =>
    refine ⟨fun x hx y hy hxy => ?_, fun x hx y hy hxy hc => ?_⟩
    · -- A process that records puts one Marker on each of its links out and closes none.
      have hm := h.marked x hx y hy hxy
      by_cases hxp : x = p
      · subst hxp
        have hyx : y ≠ x := fun he => hxy he.symm
        rw [hr] at hm
        simp only [State.record, hy, hyx, ne_eq, not_false_eq_true, and_self, if_true, if_false,
          markers_append, markers, Option.isSome_some, Bool.toNat_true]
        rw [Option.isSome_none, Bool.toNat_false] at hm
        omega
      · by_cases hyp : y = p
        · subst hyp
          have hnc := h.not_closed hx hy hxy hr
          simpa [State.record, hxp, hnc] using hm
        · simpa [State.record, hxp, hyp] using hm
    · by_cases hyp : y = p
      · simp [State.record, hyp]
      · simp only [State.record, hyp, if_false] at hc ⊢
        exact h.closed_recorded x hx y hy hxy hc
  | @marker p q l hp hq hpq hr hl =>
    refine ⟨fun x hx y hy hxy => ?_, fun x hx y hy hxy hc => ?_⟩
    · -- A Marker taken from a link closes it: one Marker less, one closed link more.
      have hm := h.marked x hx y hy hxy
      by_cases he : x = p ∧ y = q
      · obtain ⟨rfl, rfl⟩ := he
        rw [hl, markers] at hm
        have hle := Bool.toNat_le (s.recorded x).isSome
        simp only [State.close, and_self, if_true, Bool.toNat_true]
        omega
      · simpa only [State.close, he, if_false] using hm
    · by_cases he : x = p ∧ y = q
      · obtain ⟨rfl, rfl⟩ := he
        exact hr
      · simp only [State.close, he, if_false] at hc
        exact h.closed_recorded x hx y hy hxy hc

/-! ## What every step keeps -/

/-- **The total is kept** up to the wraps of the receiving balance. -/
theorem Step.total {N : Finset P} {m : ℕ} {s t : State P} (hst : Step N m s t) :
    WrapLe m (t.total N) (s.total N) := by
  -- An amount leaves a balance or joins one; recording and closing move no money.
  cases hst with
  | @send p q a hp hq hpq ha =>
    refine ledger_move hp hp hq hpq (fun y _ hy => by simp [State.send, hy])
      (fun y _ z _ hyz => by simp [State.send, hyz]) (WrapLe.of_eq ?_)
    simp only [State.send, if_true, and_self, amounts_append, amounts]
    omega
  | @receive p q a l hp hq hpq hl =>
    refine ledger_move hq hp hq hpq (fun y _ hy => by simp [State.receive, hy])
      (fun y _ z _ hyz => by simp [State.receive, hyz]) ?_
    simp only [State.receive, if_true, and_self, hl, amounts]
    rw [← Nat.add_assoc]
    exact (WrapLe.mod m _).add (WrapLe.refl m _)
  | @start p hp hr =>
    refine WrapLe.of_eq (ledger_congr (fun _ _ => rfl) fun x _ y _ _ => ?_)
    simp only [State.record]
    split
    · next h => rw [amounts_append, h.1]; rfl
    · rfl
  | @marker p q l hp hq hpq hr hl =>
    refine WrapLe.of_eq (ledger_congr (fun _ _ => rfl) fun x _ y _ _ => ?_)
    simp only [State.close]
    split
    · next h => rw [h.1, h.2, hl, amounts]
    · rfl

/-- **The cut is kept** up to the wraps of the amounts it counts. -/
theorem Step.cut {N : Finset P} {m : ℕ} {s t : State P} (h : Disciplined s N)
    (hst : Step N m s t) : WrapLe m (t.cut N) (s.cut N) := by
  cases hst with
  | @send p q a hp hq hpq ha =>
    have hm := h.marked p hp q hq hpq
    refine ledger_move hp hp hq hpq (fun y _ hy => by simp [State.send, hy])
      (fun y _ z _ hyz => by simp [State.send, State.cutLink, hyz]) (WrapLe.of_eq ?_)
    simp only [State.send, State.cutLink, if_true, and_self]
    cases hr : s.recorded p with
    | none =>
      -- nothing is recorded at the source: the amount moves from the balance to the link
      rw [hr, Option.isSome_none, Bool.toNat_false] at hm
      have hc : s.closed p q = false := by
        cases hc : s.closed p q with
        | false => rfl
        | true => simp [hc] at hm
      have hl : markers (s.link p q) = 0 := by omega
      simp only [Option.getD_none, hc, cond_false, beforeMarker_append_unmarked hl, beforeMarker]
      omega
    | some b =>
      -- the source has recorded: the amount follows the marker
      rw [hr, Option.isSome_some, Bool.toNat_true] at hm
      cases hc : s.closed p q with
      | true => simp
      | false =>
        rw [hc, Bool.toNat_false] at hm
        have hl : markers (s.link p q) ≠ 0 := by omega
        simp only [Option.getD_some, cond_false, beforeMarker_append_marked hl]
  | @receive p q a l hp hq hpq hl =>
    refine ledger_move hq hp hq hpq (fun y _ hy => by simp [State.receive, hy])
      (fun y _ z _ hyz => ?_) ?_
    · have hyz' : ¬ (y = p ∧ z = q ∧ (s.recorded q).isSome ∧ s.closed p q = false) :=
        fun he => hyz ⟨he.1, he.2.1⟩
      simp only [State.receive, State.cutLink, hyz, hyz', if_false]
    · simp only [State.receive, State.cutLink, if_true, and_self, hl, beforeMarker, true_and]
      cases hr : s.recorded q with
      | none =>
        have hc := h.not_closed hp hq hpq hr
        simp only [hc, Option.getD_none, Option.isSome_none, cond_false, Nat.zero_add]
        rw [← Nat.add_assoc]
        exact (WrapLe.mod m _).add (WrapLe.refl m _)
      | some b =>
        cases hc : s.closed p q with
        | true => exact WrapLe.of_eq (by simp)
        | false =>
          simp only [Option.getD_some, Option.isSome_some, cond_true, cond_false, if_true, and_self]
          rw [← Nat.add_assoc (s.transit p q)]
          exact (WrapLe.refl m b).add ((WrapLe.mod m _).add (WrapLe.refl m _))
  | @start p hp hr =>
    refine WrapLe.of_eq (ledger_congr (fun x _ => ?_) fun x hx y hy hxy => ?_)
    · by_cases hxp : x = p
      · subst hxp
        simp [State.record, hr]
      · simp [State.record, hxp]
    · by_cases hyp : y = p
      · -- an incoming link starts counting at zero
        subst hyp
        have hc := h.not_closed hx hy hxy hr
        simp [State.record, State.cutLink, hxy, hr, hc]
      · by_cases hxp : x = p
        · -- an outgoing link gets its marker behind everything the cut counts
          subst hxp
          simp [State.record, State.cutLink, hy, hyp, beforeMarker_append_marker]
        · simp [State.record, State.cutLink, hxp, hyp]
  | @marker p q l hp hq hpq hr hl =>
    refine WrapLe.of_eq (ledger_congr (fun _ _ => rfl) fun x _ y _ _ => ?_)
    by_cases he : x = p ∧ y = q
    · obtain ⟨rfl, rfl⟩ := he
      simp [State.close, State.cutLink, hl, beforeMarker]
    · simp only [State.close, State.cutLink, he, if_false]

/-- What has been recorded stays. -/
theorem Step.recorded {N : Finset P} {m : ℕ} {s t : State P} (hst : Step N m s t) {p : P}
    (hr : (s.recorded p).isSome) : t.recorded p = s.recorded p := by
  cases hst with
  | send _ _ _ _ => rfl
  | receive _ _ _ _ => rfl
  | @start q hq hnone =>
    have hne : p ≠ q := by
      rintro rfl
      rw [hnone] at hr
      cases hr
    simp only [State.record, hne, if_false]
  | marker _ _ _ _ _ => rfl

end Steps

/-! ## Completion -/

/-- A link that is closed carries no marker any more. -/
theorem Disciplined.unmarked {N : Finset P} {s : State P} (h : Disciplined s N) {p q : P}
    (hp : p ∈ N) (hq : q ∈ N) (hpq : p ≠ q) (hc : s.closed p q = true) :
    markers (s.link p q) = 0 := by
  have hm := h.marked p hp q hq hpq
  have hle := Bool.toNat_le (s.recorded p).isSome
  rw [hc, Bool.toNat_true] at hm
  omega

/-- **Completion.** Once a process has recorded and no marker is on its way, the snapshot is
complete: each marker that was sent has made its receiver record and has closed its link. -/
theorem Disciplined.complete {N : Finset P} {s : State P} (h : Disciplined s N)
    (hunmarked : ∀ p ∈ N, ∀ q ∈ N, p ≠ q → markers (s.link p q) = 0) {p : P} (hp : p ∈ N)
    (hr : (s.recorded p).isSome) : s.Complete N := by
  have hclosed : ∀ x ∈ N, (s.recorded x).isSome → ∀ y ∈ N, x ≠ y → s.closed x y = true := by
    intro x hx hrx y hy hxy
    have hm := h.marked x hx y hy hxy
    rw [hunmarked x hx y hy hxy, hrx, Bool.toNat_true, Nat.zero_add] at hm
    cases hc : s.closed x y with
    | true => rfl
    | false =>
      rw [hc] at hm
      cases hm
  have hrecorded : ∀ q ∈ N, (s.recorded q).isSome := by
    intro q hq
    by_cases hpq : p = q
    · exact hpq ▸ hr
    · exact h.closed_recorded p hp q hq hpq (hclosed p hp hr q hq hpq)
  exact ⟨hrecorded, fun x hx y hy hxy => hclosed x hx (hrecorded x hx) y hy hxy⟩

/-! ## Whole runs -/

/-- A balance that is recorded stays as it is. -/
theorem recorded_of_run [DecidableEq P] {N : Finset P} {m : ℕ} {s t : State P}
    (hrun : Relation.ReflTransGen (Step N m) s t) {p : P} (hr : (s.recorded p).isSome) :
    t.recorded p = s.recorded p := by
  induction hrun with
  | refl => rfl
  | tail _ hst ih =>
    rw [hst.recorded (by rw [ih]; exact hr), ih]

/-- Before the snapshot the cut is all the money. -/
theorem State.Idle.cut_eq_total {N : Finset P} {s : State P} (h : s.Idle N) :
    s.cut N = s.total N := by
  refine ledger_congr (fun p hp => ?_) fun p hp q hq hpq => ?_
  · rw [h.unrecorded p hp, Option.getD_none]
  · rw [State.cutLink, h.unrecorded q hq, h.unclosed p hp q hq hpq,
      beforeMarker_eq_amounts (h.unmarked p hp q hq hpq)]
    simp

/-- After it, the cut is what has been recorded. -/
theorem State.Complete.cut_eq_reported {N : Finset P} {s : State P} (h : s.Complete N) :
    s.cut N = s.reported N := by
  refine ledger_congr (fun p hp => ?_) fun p hp q hq hpq => ?_
  · obtain ⟨b, hb⟩ := Option.isSome_iff_exists.mp (h.1 p hp)
    rw [hb]
    rfl
  · simp [State.cutLink, h.1 q hq, h.2 p hp q hq hpq]

/-- Along a run the marker discipline, the total and the cut are kept. Induction on the
run, one step at its end. -/
theorem run_keeps [DecidableEq P] {N : Finset P} {m : ℕ} {s t : State P} (h : Disciplined s N)
    (hrun : Relation.ReflTransGen (Step N m) s t) :
    Disciplined t N ∧ WrapLe m (t.total N) (s.total N) ∧ WrapLe m (t.cut N) (s.cut N) := by
  induction hrun with
  | refl => exact ⟨h, WrapLe.refl m _, WrapLe.refl m _⟩
  | tail _ hst ih =>
    obtain ⟨hd, ht, hc⟩ := ih
    exact ⟨hd.step hst, hst.total.trans ht, (hst.cut hd).trans hc⟩

/-- **Consistency of a finished snapshot.** In every run from an idle state the total is
kept, and once the snapshot is complete it reports the total, both up to wraps. -/
theorem reported_of_run [DecidableEq P] {N : Finset P} {m : ℕ} {s t : State P} (h : s.Idle N)
    (hrun : Relation.ReflTransGen (Step N m) s t) :
    WrapLe m (t.total N) (s.total N) ∧
      (t.Complete N → WrapLe m (t.reported N) (s.total N)) := by
  obtain ⟨_, ht, hc⟩ := run_keeps h.disciplined hrun
  refine ⟨ht, fun hcomplete => ?_⟩
  rw [← hcomplete.cut_eq_reported, ← h.cut_eq_total]
  exact hc

end GlobalSnapshot
