import Mathlib.Logic.Relation

/-!
# Runs of a partial step function

A system is a type of states, a type of actions and a partial function `step`: an action
that is not enabled, or on which the program faults, has no successor. The actions carry
every choice the scheduler, the network or a random source makes, so a run is a list of
actions and `exec` computes the state it ends in.

The rules below are the ways the rest of the development reasons about runs:

* **`exec_inv_along`** — an invariant that each step preserves, under a side condition on
  the steps, holds at the end of every run whose steps meet the condition.
* **`along_of_inv`** — a property of the steps that the invariant implies holds at each step.
* **`along_congr`** — equivalent conditions on the steps.
* **`along_iff_reached`** — a condition on the steps that is exactly what keeps the states good.
* **`exec_sim`** — a simulation: if each step is matched by a finite number of abstract
  steps, so is every run.
* **`exec_append`** — a run splits at any of its intermediate states.
* **`outcomes_related`** — the same rule for steps that always succeed and return something.
-/

namespace Transition

variable {σ α τ : Type*}

/-- The state reached from `s` by the actions `as`, when each of them is enabled in turn. -/
def exec (step : σ → α → Option σ) : σ → List α → Option σ
  | s, [] => some s
  | s, a :: as => (step s a).bind fun s' => exec step s' as

/-- Every step that the run `as` from `s` takes meets the condition `C`, which may look at
the state before the step. -/
def Along (step : σ → α → Option σ) (C : σ → α → Prop) : σ → List α → Prop
  | _, [] => True
  | s, a :: as => C s a ∧ ∀ s', step s a = some s' → Along step C s' as

instance Along.decidable (step : σ → α → Option σ) (C : σ → α → Prop)
    [∀ s a, Decidable (C s a)] : ∀ s as, Decidable (Along step C s as)
  | _, [] => isTrue trivial
  | s, a :: as =>
    match h : step s a with
    | none => decidable_of_iff (C s a) (by simp [Along, h])
    | some s' =>
      have := Along.decidable step C s' as
      decidable_of_iff (C s a ∧ Along step C s' as) (by simp [Along, h])

variable {step : σ → α → Option σ}

@[simp] theorem exec_nil (s : σ) : exec step s [] = some s := rfl

theorem exec_cons {s t : σ} {a : α} {as : List α} :
    exec step s (a :: as) = some t ↔ ∃ m, step s a = some m ∧ exec step m as = some t := by
  simp only [exec, Option.bind_eq_some_iff]

/-- A run is a run to a state and one from there. -/
theorem exec_append {s t : σ} {as bs : List α} :
    exec step s (as ++ bs) = some t ↔
      ∃ m, exec step s as = some m ∧ exec step m bs = some t := by
  induction as generalizing s with
  | nil => simp
  | cons a as ih =>
    rw [List.cons_append, exec_cons]
    constructor
    · rintro ⟨m, hm, hrest⟩
      obtain ⟨k, hk, hbs⟩ := ih.mp hrest
      exact ⟨k, exec_cons.mpr ⟨m, hm, hk⟩, hbs⟩
    · rintro ⟨k, hk, hbs⟩
      obtain ⟨m, hm, hrest⟩ := exec_cons.mp hk
      exact ⟨m, hm, ih.mpr ⟨k, hrest, hbs⟩⟩

/-- What holds along a run holds along the rest of it. -/
theorem Along.of_append {C : σ → α → Prop} {s t : σ} {as bs : List α}
    (h : Along step C s (as ++ bs)) (hrun : exec step s as = some t) : Along step C t bs := by
  induction as generalizing s with
  | nil =>
    cases hrun
    exact h
  | cons a as ih =>
    obtain ⟨m, hm, hrest⟩ := exec_cons.mp hrun
    exact ih (h.2 m hm) hrest

/-- **The invariant rule.** `P` holds at the end of a run that starts in `P` and whose steps
all meet `C`, when each step that meets `C` preserves `P`. Induction on the run. -/
theorem exec_inv_along {C : σ → α → Prop} {P : σ → Prop}
    (hstep : ∀ s a s', P s → C s a → step s a = some s' → P s')
    {s t : σ} {as : List α} (hs : P s) (halong : Along step C s as)
    (hrun : exec step s as = some t) : P t := by
  induction as generalizing s with
  | nil =>
    cases hrun
    exact hs
  | cons a as ih =>
    obtain ⟨m, hm, hrest⟩ := exec_cons.mp hrun
    exact ih (hstep s a m hs halong.1 hm) (halong.2 m hm) hrest

/-- The invariant rule without a side condition. -/
theorem exec_inv {P : σ → Prop} (hstep : ∀ s a s', P s → step s a = some s' → P s')
    {s t : σ} {as : List α} (hs : P s) (hrun : exec step s as = some t) : P t := by
  induction as generalizing s with
  | nil =>
    cases hrun
    exact hs
  | cons a as ih =>
    obtain ⟨m, hm, hrest⟩ := exec_cons.mp hrun
    exact ih (hstep s a m hs hm) hrest

/-- **The rule for what holds at every step.** When each step that meets `C` preserves `P`, and
`C` gives `Q` wherever `P` holds, then `Q` holds along every run along which `C` does. -/
theorem along_of_inv {C Q : σ → α → Prop} {P : σ → Prop}
    (hstep : ∀ s a s', P s → C s a → step s a = some s' → P s')
    (hgoal : ∀ s a, P s → C s a → Q s a) {s : σ} {as : List α} (hs : P s)
    (halong : Along step C s as) : Along step Q s as := by
  induction as generalizing s with
  | nil => trivial
  | cons a as ih =>
    refine ⟨hgoal s a hs halong.1, fun s' hs' => ?_⟩
    exact ih (hstep s a s' hs halong.1 hs') (halong.2 s' hs')

/-- A condition that holds of the actions holds along every run. -/
theorem along_of_mem {C : σ → α → Prop} {s : σ} {as : List α} (h : ∀ a ∈ as, ∀ s, C s a) :
    Along step C s as := by
  induction as generalizing s with
  | nil => trivial
  | cons a as ih =>
    exact ⟨h a List.mem_cons_self s, fun s' _ => ih fun b hb => h b (List.mem_cons_of_mem a hb)⟩

/-- So does one that always holds. -/
theorem along_of_forall {C : σ → α → Prop} (h : ∀ s a, C s a) (s : σ) (as : List α) :
    Along step C s as :=
  along_of_mem fun a _ s => h s a

/-- A run along which a condition does not hold takes a step that does not meet it. -/
theorem exists_of_not_along {C : σ → α → Prop} {s : σ} {as : List α} (h : ¬ Along step C s as) :
    ∃ before a after t, as = before ++ a :: after ∧ exec step s before = some t ∧ ¬ C t a := by
  induction as generalizing s with
  | nil => exact absurd trivial h
  | cons a as ih =>
    rcases Classical.not_and_iff_not_or_not.mp h with ha | hrest
    · exact ⟨[], a, as, s, rfl, rfl, ha⟩
    · obtain ⟨m, hm⟩ := Classical.not_forall.mp hrest
      obtain ⟨hstep, hnot⟩ := Classical.not_imp.mp hm
      obtain ⟨before, b, after, t, rfl, hexec, hb⟩ := ih hnot
      exact ⟨a :: before, b, after, t, rfl, exec_cons.mpr ⟨m, hstep, hexec⟩, hb⟩

/-- **The rule for equivalent conditions.** Two conditions that agree wherever an invariant and
the condition `C` hold are met along the same runs of those along which `C` is. -/
theorem along_congr {C Q R : σ → α → Prop} {P : σ → Prop}
    (hstep : ∀ s a s', P s → step s a = some s' → P s')
    (hgoal : ∀ s a, P s → C s a → (Q s a ↔ R s a)) {s : σ} {as : List α} (hs : P s)
    (halong : Along step C s as) : Along step Q s as ↔ Along step R s as := by
  induction as generalizing s with
  | nil => exact Iff.rfl
  | cons a as ih =>
    have hrest : ∀ s', step s a = some s' → (Along step Q s' as ↔ Along step R s' as) :=
      fun s' hs' => ih (hstep s a s' hs hs') (halong.2 s' hs')
    show _ ∧ _ ↔ _ ∧ _
    rw [hgoal s a hs halong.1]
    constructor
    · exact fun h => ⟨h.1, fun s' hs' => (hrest s' hs').mp (h.2 s' hs')⟩
    · exact fun h => ⟨h.1, fun s' hs' => (hrest s' hs').mpr (h.2 s' hs')⟩

/-- **The rule for an exact condition.** When, under an invariant `I` and from a state in `P`, a
step meets `C` exactly if it leads to `P`, then all steps of a run meet `C` exactly if all
states that it reaches are in `P`. -/
theorem along_iff_reached {C : σ → α → Prop} {I P : σ → Prop}
    (hinv : ∀ s a s', I s → step s a = some s' → I s')
    (hstep : ∀ s a, I s → P s → (C s a ↔ ∀ s', step s a = some s' → P s'))
    {s : σ} {as : List α} (hs : I s) (hP : P s) :
    Along step C s as ↔ ∀ before, before <+: as → ∀ t, exec step s before = some t → P t := by
  induction as generalizing s with
  | nil =>
    refine ⟨fun _ before hbefore t ht => ?_, fun _ => trivial⟩
    obtain rfl := List.prefix_nil.mp hbefore
    cases ht
    exact hP
  | cons a as ih =>
    constructor
    · intro halong before hbefore t ht
      cases before with
      | nil =>
        cases ht
        exact hP
      | cons b before =>
        obtain ⟨rfl, hrest⟩ := List.cons_prefix_cons.mp hbefore
        obtain ⟨m, hm, hexec⟩ := exec_cons.mp ht
        have hPm := (hstep s b hs hP).mp halong.1 m hm
        exact (ih (hinv s b m hs hm) hPm).mp (halong.2 m hm) before hrest t hexec
    · intro hall
      -- one step is a run of one action
      have hone : ∀ s', step s a = some s' → P s' := fun s' hs' =>
        hall [a] (List.cons_prefix_cons.mpr ⟨rfl, List.nil_prefix⟩) s'
          (exec_cons.mpr ⟨s', hs', rfl⟩)
      refine ⟨(hstep s a hs hP).mpr hone, fun m hm => ?_⟩
      refine (ih (hinv s a m hs hm) (hone m hm)).mpr fun before hbefore t ht => ?_
      exact hall (a :: before) (List.cons_prefix_cons.mpr ⟨rfl, hbefore⟩) t
        (exec_cons.mpr ⟨m, hm, ht⟩)

/-- **The simulation rule.** When `R` relates the two start states and every step from
related states is matched by abstract steps `r`, the whole run is. -/
theorem exec_sim {C : σ → α → Prop} {r : τ → τ → Prop} {R : σ → τ → Prop}
    (hstep : ∀ s a s' x, R s x → C s a → step s a = some s' →
      ∃ x', Relation.ReflTransGen r x x' ∧ R s' x')
    {s t : σ} {as : List α} {x : τ} (hs : R s x) (halong : Along step C s as)
    (hrun : exec step s as = some t) :
    ∃ y, Relation.ReflTransGen r x y ∧ R t y := by
  induction as generalizing s x with
  | nil =>
    cases hrun
    exact ⟨x, .refl, hs⟩
  | cons a as ih =>
    obtain ⟨m, hm, hrest⟩ := exec_cons.mp hrun
    obtain ⟨x', hx', hmx'⟩ := hstep s a m x hs halong.1 hm
    obtain ⟨y, hy, hty⟩ := ih hmx' (halong.2 m hm) hrest
    exact ⟨y, hx'.trans hy, hty⟩

/-! ## Steps that return something -/

section Outcomes

variable {ι β : Type*}

/-- What the steps of a run return, one after the other, and the state behind them. -/
def outcomes (serve : ι → σ → β × σ) : List ι → σ → List β × σ
  | [], s => ([], s)
  | a :: as, s =>
    let (outcome, s) := serve a s
    let (rest, s) := outcomes serve as s
    (outcome :: rest, s)

/-- **The rule for what is seen.** Two step functions that return the same from related states,
and lead to related states again, return the same over a whole run. -/
theorem outcomes_related {serve : ι → σ → β × σ} {serve' : ι → τ → β × τ} {R : σ → τ → Prop}
    {as : List ι}
    (hstep : ∀ a ∈ as, ∀ s t, R s t →
      (serve a s).1 = (serve' a t).1 ∧ R (serve a s).2 (serve' a t).2)
    {s : σ} {t : τ} (hs : R s t) :
    (outcomes serve as s).1 = (outcomes serve' as t).1 ∧
      R (outcomes serve as s).2 (outcomes serve' as t).2 := by
  induction as generalizing s t with
  | nil => exact ⟨rfl, hs⟩
  | cons a as ih =>
    obtain ⟨hsame, hnext⟩ := hstep a List.mem_cons_self s t hs
    obtain ⟨hrest, hlast⟩ := ih (fun b hb => hstep b (List.mem_cons_of_mem a hb)) hnext
    simp only [outcomes]
    exact ⟨by rw [hsame, hrest], hlast⟩

end Outcomes

end Transition
