import Mathlib.Data.Nat.Init

/-!
# Forwarding a request

A request is handed from node to node: a node that answers ends the chain, any other one
hands it to `next`. `route` follows the chain for a number of calls.

* **`route_answers`** — a chain ends in a node that answers.
* **`route_within`**, **`route_of_measure`** — a chain with a measure that goes down at every hop
  ends, and how long it can be.
* **`route_none`** — a chain that stays in a set of nodes that do not answer has no end.
-/

namespace Routing

variable {β : Type*}

/-- The node that answers a request to `x`, after at most `fuel` calls. -/
def route (answers : β → Bool) (next : β → β) : ℕ → β → Option β
  | 0, _ => none
  | fuel + 1, x => if answers x then some x else route answers next fuel (next x)

variable {answers : β → Bool} {next : β → β}

/-- A route ends where there is an answer. -/
theorem route_answers {fuel : ℕ} {x y : β} (h : route answers next fuel x = some y) :
    answers y = true := by
  induction fuel generalizing x with
  | zero => cases h
  | succ fuel ih =>
    unfold route at h
    split at h
    · next hx => exact Option.some.inj h ▸ hx
    · exact ih h

/-- **How long such a chain can be.** Every hop but the last one makes the measure smaller. -/
theorem route_within {P : β → Prop} (μ : β → ℕ)
    (hnext : ∀ x, P x → answers x = false →
      P (next x) ∧ (answers (next x) = true ∨ μ (next x) < μ x))
    {n : ℕ} {x : β} (hx : P x) (hn : μ x ≤ n) :
    ∃ y, route answers next (n + 2) x = some y ∧ P y := by
  induction n using Nat.strong_induction_on generalizing x with
  | _ n ih =>
    cases hans : answers x with
    | true => exact ⟨x, by simp [route, hans], hx⟩
    | false =>
      obtain ⟨hP, hgoal | hlt⟩ := hnext x hx hans
      · exact ⟨next x, by simp [route, hans, hgoal], hP⟩
      · obtain ⟨y, hroute, hy⟩ := ih (n - 1) (by omega) hP (by omega)
        have hfuel : n - 1 + 2 = n + 1 := by omega
        refine ⟨y, ?_, hy⟩
        rw [route, if_neg (by simp [hans]), ← hfuel]
        exact hroute

/-- **A chain with a measure ends.** -/
theorem route_of_measure {P : β → Prop} (μ : β → ℕ)
    (hnext : ∀ x, P x → answers x = false →
      P (next x) ∧ (answers (next x) = true ∨ μ (next x) < μ x))
    {x : β} (hx : P x) : ∃ fuel y, route answers next fuel x = some y ∧ P y :=
  ⟨μ x + 2, route_within μ hnext hx (Nat.le_refl _)⟩

/-- **A chain that nobody answers has no end.** -/
theorem route_none {C : β → Prop} (hC : ∀ x, C x → answers x = false ∧ C (next x)) (fuel : ℕ)
    {x : β} (hx : C x) : route answers next fuel x = none := by
  induction fuel generalizing x with
  | zero => rfl
  | succ fuel ih =>
    obtain ⟨hans, hnext⟩ := hC x hx
    rw [route, if_neg (by simp [hans])]
    exact ih hnext

end Routing
