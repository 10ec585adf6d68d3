import Mathlib.Data.List.Basic
import Mathlib.Data.List.Infix

/-!
# Paths as moves on a stack of names

A path is resolved from left to right on a stack of names: a name is pushed, a step up pops, and
there is nothing above the empty stack. What a path does to any stack is told by two things that
do not depend on the stack: how far it climbs above its start, and the names that it has
descended through since.

* **`relative`** — the climb and the descent of a path.
* **`resolve_eq`** — they determine what the path does to a stack.
* **`prefix_resolve_iff`** — when the path ends below where it starts.
-/

namespace PathStack

/-- A step of a path. -/
inductive Move (α : Type*) where
  | stay
  | up
  | into (name : α)
  deriving DecidableEq

variable {α : Type*}

def step (stack : List α) : Move α → List α
  | .stay => stack
  | .up => stack.dropLast
  | .into name => stack ++ [name]

/-- The stack at the end of a path. -/
def resolve (stack : List α) (path : List (Move α)) : List α := path.foldl step stack

/-- One more step from a climb of `climb` and a descent through `descent`. -/
def relativeStep : ℕ × List α → Move α → ℕ × List α
  | at_, .stay => at_
  | (climb, []), .up => (climb + 1, [])
  | (climb, descent), .up => (climb, descent.dropLast)
  | (climb, descent), .into name => (climb, descent ++ [name])

/-- How far a path climbs above its start, and the names it ends below that. -/
def relative (path : List (Move α)) : ℕ × List α := path.foldl relativeStep (0, [])

/-- The stack that is left after climbing, with the names of the descent. -/
def place (stack : List α) (at_ : ℕ × List α) : List α :=
  stack.take (stack.length - at_.1) ++ at_.2

/-- A relative position, placed on the stack, moves as the stack does. -/
theorem place_relativeStep (stack : List α) (at_ : ℕ × List α) (m : Move α) :
    place stack (relativeStep at_ m) = step (place stack at_) m := by
  obtain ⟨climb, descent⟩ := at_
  cases m with
  | stay => rfl
  | up =>
    cases descent with
    | nil =>
      simp only [relativeStep, place, step, List.append_nil, List.dropLast_eq_take,
        List.length_take, List.take_take]
      congr 1
      omega
    | cons name rest =>
      simp only [relativeStep, place, step]
      rw [List.dropLast_append_of_ne_nil (List.cons_ne_nil _ _)]
  | into name => simp only [relativeStep, place, step, List.append_assoc]

/-- **The climb and the descent** determine what the path does to a stack. -/
theorem resolve_eq (stack : List α) (path : List (Move α)) :
    resolve stack path = place stack (relative path) := by
  have hgeneral : ∀ at_, path.foldl step (place stack at_)
      = place stack (path.foldl relativeStep at_) := by
    induction path with
    | nil => exact fun _ => rfl
    | cons m path ih =>
      intro at_
      rw [List.foldl_cons, List.foldl_cons, ← place_relativeStep]
      exact ih _
  have hstart : place stack (0, []) = stack := by
    simp [place]
  have h := hgeneral (0, [])
  rw [hstart] at h
  exact h

/-- A path is resolved part by part. -/
theorem resolve_append (stack : List α) (path rest : List (Move α)) :
    resolve stack (path ++ rest) = resolve (resolve stack path) rest := List.foldl_append

/-- **The path ends below its start** exactly when it descends again through the names that it
has climbed. -/
theorem prefix_resolve_iff (stack : List α) (path : List (Move α)) :
    stack <+: resolve stack path ↔
      stack.drop (stack.length - (relative path).1) <+: (relative path).2 := by
  rw [resolve_eq, place]
  generalize stack.length - (relative path).1 = kept
  have h : stack.take kept ++ stack.drop kept <+: stack.take kept ++ (relative path).2 ↔
      stack.drop kept <+: (relative path).2 := List.prefix_append_right_inj _
  rwa [List.take_append_drop] at h

end PathStack
