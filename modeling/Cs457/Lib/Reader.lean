import Mathlib.Data.List.Forall2

/-!
# Readers of byte streams

A reader takes a value off the front of its input and leaves the rest. A format is read back when
the reader takes exactly what the writer put, whatever comes behind it, and such formats compose.

* **`Reads`** — a reader takes given bytes off any input, and its composition rules.
* **`Returns`** — all that a reader returns has a property.
* **`reads_readMany`** — a known number of values.
* **`readAll_flatten`** — values up to the end of the input.
-/

namespace Reading

/-- A reader takes its value off the front of the input; `none` is an exception. -/
abbrev Reader (α : Type) := StateT (List UInt8) Option α

/-- The reader takes `bytes` off any input and returns `a`. -/
def Reads {α : Type} (r : Reader α) (bytes : List UInt8) (a : α) : Prop :=
  ∀ rest, r.run (bytes ++ rest) = some (a, rest)

variable {α β : Type} {r : Reader α} {bytes others : List UInt8} {a : α} {b : β}

theorem Reads.pure (a : α) : Reads (Pure.pure a) [] a := fun _ => rfl

/-- Two readers, one after the other. -/
theorem Reads.bind {f : α → Reader β} (h : Reads r bytes a) (hf : Reads (f a) others b) :
    Reads (r >>= f) (bytes ++ others) b := by
  intro rest
  rw [StateT.run_bind, List.append_assoc, h]
  exact hf rest

/-- A last step that takes nothing. -/
theorem Reads.bind_nil {f : α → Reader β} (h : Reads r bytes a) (hf : Reads (f a) [] b) :
    Reads (r >>= f) bytes b := by
  have hlast := h.bind hf
  rwa [List.append_nil] at hlast

theorem Reads.bind_pure {f : α → β} (h : Reads r bytes a) :
    Reads (r >>= fun x => Pure.pure (f x)) bytes (f a) :=
  h.bind_nil (Reads.pure (f a))

/-- A reader that has read everything. -/
theorem Reads.run_nil (h : Reads r bytes a) : r.run bytes = some (a, []) := by
  have hrun := h []
  rwa [List.append_nil] at hrun

/-- A reader that goes by what is left of the input. -/
theorem Reads.get {f : List UInt8 → Reader β}
    (h : ∀ rest, (f (bytes ++ rest)).run (bytes ++ rest) = some (b, rest)) :
    Reads (MonadState.get >>= f) bytes b := h

/-! ## What a reader can return -/

/-- All that the reader returns, whatever it reads, is of `Q`. -/
def Returns (r : Reader α) (Q : α → Prop) : Prop :=
  ∀ input a rest, r.run input = some (a, rest) → Q a

variable {Q : α → Prop} {Q' : β → Prop}

theorem Returns.pure (h : Q a) : Returns (Pure.pure a) Q := by
  intro input b rest hrun
  cases hrun
  exact h

/-- A reader that fails returns nothing. -/
theorem Returns.failure : Returns (Alternative.failure : Reader α) Q := by
  intro input b rest hrun
  cases hrun

/-- What the second reader returns, given what the first one does. -/
theorem Returns.bind {f : α → Reader β} (h : Returns r Q) (hf : ∀ a, Q a → Returns (f a) Q') :
    Returns (r >>= f) Q' := by
  intro input b rest hrun
  rw [StateT.run_bind] at hrun
  obtain ⟨⟨a, middle⟩, hfirst, hrun⟩ := Option.bind_eq_some_iff.mp hrun
  exact hf a (h input a middle hfirst) middle b rest hrun

/-- A step whose value does not matter. -/
theorem Returns.after {f : α → Reader β} (r : Reader α) (hf : ∀ a, Returns (f a) Q') :
    Returns (r >>= f) Q' :=
  Returns.bind (Q := fun _ => True) (fun _ _ _ _ => trivial) fun a _ => hf a

/-- What is read has the property. -/
theorem Returns.of_reads (h : Returns r Q) (hreads : Reads r bytes a) : Q a :=
  h bytes a [] hreads.run_nil

/-! ## Bytes -/

def takeBytes (n : ℕ) : Reader (List UInt8) := fun input =>
  if n ≤ input.length then some (input.take n, input.drop n) else none

/-- As many bytes as are asked for. -/
theorem reads_takeBytes (bytes : List UInt8) : Reads (takeBytes bytes.length) bytes bytes := by
  intro rest
  show (if _ then _ else _) = _
  rw [if_pos (by rw [List.length_append]; omega), List.take_left, List.drop_left]

/-! ## Several values -/

/-- A value `size` times over. -/
def readMany (r : Reader α) : ℕ → Reader (List α)
  | 0 => pure []
  | size + 1 => do
    let a ← r
    let as ← readMany r size
    return a :: as

/-- All elements have the property. -/
theorem returns_readMany (h : Returns r Q) (size : ℕ) :
    Returns (readMany r size) fun as => ∀ a ∈ as, Q a := by
  induction size with
  | zero => exact Returns.pure (List.forall_mem_nil _)
  | succ size ih =>
    refine h.bind fun a ha => ih.bind fun as has => Returns.pure ?_
    exact List.forall_mem_cons.mpr ⟨ha, has⟩

/-- Elements one after the other, their number being known. -/
theorem reads_readMany {as : List α} {elems : List (List UInt8)}
    (h : List.Forall₂ (fun a bytes => Reads r bytes a) as elems) :
    Reads (readMany r as.length) elems.flatten as := by
  induction h with
  | nil => exact Reads.pure []
  | cons ha _ ih =>
    rw [List.flatten_cons]
    apply ha.bind
    exact ih.bind_pure

/-- Values up to the end of the input, `turns` of them at most. -/
def readTurns (r : Reader α) : ℕ → List UInt8 → Option (List α)
  | _, [] => some []
  | 0, _ :: _ => none
  | turns + 1, input => do
    let (a, rest) ← r.run input
    let as ← readTurns r turns rest
    return a :: as

/-- Values up to the end of the input; each of them takes a byte. -/
def readAll (r : Reader α) (input : List UInt8) : Option (List α) := readTurns r input.length input

/-- **A stream of values** is taken apart into them. Induction on the values, a turn for each. -/
theorem readTurns_flatten {as : List α} {elems : List (List UInt8)}
    (h : List.Forall₂ (fun a bytes => Reads r bytes a ∧ bytes ≠ []) as elems) {turns : ℕ}
    (hturns : elems.flatten.length ≤ turns) : readTurns r turns elems.flatten = some as := by
  induction h generalizing turns with
  | nil => cases turns <;> rfl
  | @cons a bytes as elems ha _ ih =>
    obtain ⟨hread, hne⟩ := ha
    rw [List.flatten_cons, List.length_append] at hturns
    rw [List.flatten_cons]
    cases bytes with
    | nil => exact absurd rfl hne
    | cons b bytes =>
      cases turns with
      | zero => simp at hturns
      | succ turns =>
        have hrest : readTurns r turns elems.flatten = some as := by
          apply ih
          rw [List.length_cons] at hturns
          omega
        have hrun := hread elems.flatten
        simp only [List.cons_append, readTurns] at hrun ⊢
        rw [hrun]
        simp [hrest]

/-- Elements one after the other, to the end of the bytes. -/
theorem readAll_flatten {as : List α} {elems : List (List UInt8)}
    (h : List.Forall₂ (fun a bytes => Reads r bytes a ∧ bytes ≠ []) as elems) :
    readAll r elems.flatten = some as :=
  readTurns_flatten h (Nat.le_refl _)

end Reading
