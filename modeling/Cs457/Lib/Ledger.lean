import Cs457.Lib.Wrap
import Mathlib.Algebra.BigOperators.Group.Finset.Basic
import Mathlib.Algebra.BigOperators.Group.Finset.Piecewise

/-!
# Ledgers over nodes and links

A ledger adds a number `f p` for every node `p` of a finite set and a number `g p q` for
every ordered pair of distinct nodes. Balances and messages in flight have this shape, and
so have a recorded cut and the amounts recorded for its links.

A protocol step changes a ledger at one node and on one link:

* **`ledger_move`** — when what the node and the link hold together is kept up to wraps, so
  is the whole ledger.
* **`ledger_set`** — when the node alone is assigned a new value, the ledger changes by the
  difference.
-/

variable {P : Type*}

/-- The sum of `f` over the nodes `N` and of `g` over the links between distinct nodes. -/
def ledger (N : Finset P) (f : P → ℕ) (g : P → P → ℕ) : ℕ :=
  ∑ p ∈ N, f p + ∑ e ∈ N.offDiag, g e.1 e.2

/-- A ledger depends on its entries. -/
theorem ledger_congr {N : Finset P} {f f' : P → ℕ} {g g' : P → P → ℕ}
    (hf : ∀ p ∈ N, f' p = f p)
    (hg : ∀ p ∈ N, ∀ q ∈ N, p ≠ q → g' p q = g p q) : ledger N f' g' = ledger N f g := by
  unfold ledger
  congr 1
  · exact Finset.sum_congr rfl hf
  · refine Finset.sum_congr rfl fun e he => ?_
    obtain ⟨hp, hq, hne⟩ := Finset.mem_offDiag.mp he
    exact hg e.1 hp e.2 hq hne

/-- A ledger that changes at the node `x` and on the link from `p` to `q` only. -/
theorem ledger_move [DecidableEq P] {m : ℕ} {N : Finset P} {f f' : P → ℕ} {g g' : P → P → ℕ}
    {x p q : P} (hx : x ∈ N) (hp : p ∈ N) (hq : q ∈ N) (hpq : p ≠ q)
    (hf : ∀ y ∈ N, y ≠ x → f' y = f y)
    (hg : ∀ y ∈ N, ∀ z ∈ N, ¬ (y = p ∧ z = q) → g' y z = g y z)
    (hmove : WrapLe m (f' x + g' p q) (f x + g p q)) :
    WrapLe m (ledger N f' g') (ledger N f g) := by
  have hlink : (p, q) ∈ N.offDiag := Finset.mem_offDiag.mpr ⟨hp, hq, hpq⟩
  -- split the changed node and the changed link off both ledgers
  have hsplit : ∀ (f : P → ℕ) (g : P → P → ℕ), ledger N f g
      = (f x + g p q) + (∑ y ∈ N.erase x, f y + ∑ e ∈ N.offDiag.erase (p, q), g e.1 e.2) := by
    intro f g
    unfold ledger
    rw [← Finset.add_sum_erase N f hx,
      ← Finset.add_sum_erase N.offDiag (fun e => g e.1 e.2) hlink]
    simp only
    omega
  have hnodes : ∑ y ∈ N.erase x, f' y = ∑ y ∈ N.erase x, f y := by
    refine Finset.sum_congr rfl fun y hy => ?_
    exact hf y (Finset.mem_of_mem_erase hy) (Finset.ne_of_mem_erase hy)
  have hlinks : ∑ e ∈ N.offDiag.erase (p, q), g' e.1 e.2
      = ∑ e ∈ N.offDiag.erase (p, q), g e.1 e.2 := by
    refine Finset.sum_congr rfl fun e he => ?_
    obtain ⟨hy, hz, _⟩ := Finset.mem_offDiag.mp (Finset.mem_of_mem_erase he)
    refine hg e.1 hy e.2 hz fun heq => Finset.ne_of_mem_erase he ?_
    exact Prod.ext heq.1 heq.2
  rw [hsplit f' g', hsplit f g, hnodes, hlinks]
  exact hmove.add (WrapLe.refl m _)

/-- A ledger that changes at the node `x` only. -/
theorem ledger_set [DecidableEq P] {N : Finset P} {f f' : P → ℕ} {g g' : P → P → ℕ} {x : P}
    (hx : x ∈ N) (hf : ∀ y ∈ N, y ≠ x → f' y = f y)
    (hg : ∀ p ∈ N, ∀ q ∈ N, p ≠ q → g' p q = g p q) :
    ledger N f' g' + f x = ledger N f g + f' x := by
  have hlinks : ∑ e ∈ N.offDiag, g' e.1 e.2 = ∑ e ∈ N.offDiag, g e.1 e.2 := by
    refine Finset.sum_congr rfl fun e he => ?_
    obtain ⟨hp, hq, hne⟩ := Finset.mem_offDiag.mp he
    exact hg e.1 hp e.2 hq hne
  have hnodes : ∑ y ∈ N.erase x, f' y = ∑ y ∈ N.erase x, f y := by
    refine Finset.sum_congr rfl fun y hy => ?_
    exact hf y (Finset.mem_of_mem_erase hy) (Finset.ne_of_mem_erase hy)
  rw [ledger, ledger, hlinks, ← Finset.add_sum_erase N f hx, ← Finset.add_sum_erase N f' hx, hnodes]
  omega
