import Mathlib.Data.Nat.ModEq
import Mathlib.Algebra.BigOperators.Group.Finset.Basic
import Mathlib.Algebra.Order.BigOperators.Group.Finset

/-!
# Natural numbers up to wrap-around

Adding two machine words loses a multiple of the word size `m` when it wraps. `WrapLe m a b`
says that `a` is what is left of `b` after any number of such losses: `a ≤ b` and the two
agree modulo `m`. It is a congruence for sums, so a whole ledger may be compared up to wraps,
and below `m` it is equality (`WrapLe.eq_of_lt`). For `m = 0` nothing ever wraps and `WrapLe`
is equality throughout.
-/

/-- `a` is `b` less the multiples of `m` that wrap-arounds have dropped. -/
def WrapLe (m a b : ℕ) : Prop := a ≤ b ∧ a ≡ b [MOD m]

namespace WrapLe

variable {m a b c d : ℕ}

theorem refl (m a : ℕ) : WrapLe m a a := ⟨le_rfl, Nat.ModEq.refl a⟩

theorem of_eq (h : a = b) : WrapLe m a b := h ▸ refl m a

theorem trans (hab : WrapLe m a b) (hbc : WrapLe m b c) : WrapLe m a c :=
  ⟨hab.1.trans hbc.1, hab.2.trans hbc.2⟩

theorem add (hab : WrapLe m a b) (hcd : WrapLe m c d) : WrapLe m (a + c) (b + d) :=
  ⟨Nat.add_le_add hab.1 hcd.1, hab.2.add hcd.2⟩

theorem mod (m a : ℕ) : WrapLe m (a % m) a := ⟨Nat.mod_le a m, Nat.mod_modEq a m⟩

/-- Below the word size nothing can have been lost. -/
theorem eq_of_lt (h : WrapLe m a b) (hb : b < m) : a = b :=
  h.2.eq_of_lt_of_lt (h.1.trans_lt hb) hb

end WrapLe
