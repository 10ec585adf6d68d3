import Mathlib.Data.List.Lex
import Mathlib.Data.Nat.Digits.Defs
import Mathlib.Tactic.Ring

/-!
# Positional numerals

Numerals to a base `b`, the most significant digit first, as a program that handles them as
strings has them. Their value is Mathlib's `Nat.ofDigits` of the reversed digits.

* **`lt_iff_value_lt`** — for numerals of one length the lexicographic order is the order of
  the values.
* **`ripple_value`** — adding column by column from the least significant one, with a carry,
  is exact.
* **`value_drop`** — the last `k` digits are the value modulo `b ^ k`.
-/

namespace Numeral

variable {b : ℕ}

/-- The value of a numeral. -/
def value (b : ℕ) (ds : List ℕ) : ℕ := Nat.ofDigits b ds.reverse

@[simp] theorem value_nil : value b [] = 0 := rfl

theorem value_cons (d : ℕ) (ds : List ℕ) : value b (d :: ds) = d * b ^ ds.length + value b ds := by
  rw [value, Nat.ofDigits_reverse_cons, value]
  ring

/-- The value of a numeral in two parts. -/
theorem value_append (ds es : List ℕ) :
    value b (ds ++ es) = value b ds * b ^ es.length + value b es := by
  rw [value, List.reverse_append, Nat.ofDigits_append, List.length_reverse, value, value]
  ring

/-- A numeral of `n` digits. -/
theorem value_lt (hb : 1 < b) {ds : List ℕ} (h : ∀ d ∈ ds, d < b) : value b ds < b ^ ds.length := by
  have hlt := Nat.ofDigits_lt_base_pow_length (l := ds.reverse) hb
    fun d hd => h d (List.mem_reverse.mp hd)
  rwa [List.length_reverse] at hlt

/-- **Lexicographic order is numeric order.** Induction on the common length: the first
digits decide unless they are equal. -/
theorem lt_iff_value_lt (hb : 1 < b) {ds es : List ℕ} (hlen : ds.length = es.length)
    (hds : ∀ d ∈ ds, d < b) (hes : ∀ d ∈ es, d < b) : ds < es ↔ value b ds < value b es := by
  induction ds generalizing es with
  | nil =>
    obtain rfl := List.length_eq_zero_iff.mp hlen.symm
    simp
  | cons d ds ih =>
    obtain ⟨e, es, rfl⟩ := List.exists_cons_of_length_eq_add_one hlen.symm
    have hlen' : ds.length = es.length := Nat.succ.inj hlen
    have hds' : ∀ x ∈ ds, x < b := fun x hx => hds x (List.mem_cons_of_mem d hx)
    have hes' : ∀ x ∈ es, x < b := fun x hx => hes x (List.mem_cons_of_mem e hx)
    have hvd := value_lt hb hds'
    have hve := value_lt hb hes'
    rw [List.cons_lt_cons_iff, ih hlen' hds' hes', value_cons, value_cons, ← hlen']
    rw [← hlen'] at hve
    constructor
    · -- A smaller leading digit is worth more than all the digits behind it.
      rintro (hlt | ⟨rfl, hlt⟩)
      · have hstep : (d + 1) * b ^ ds.length ≤ e * b ^ ds.length := Nat.mul_le_mul_right _ hlt
        rw [Nat.add_mul, Nat.one_mul] at hstep
        omega
      · omega
    · intro hlt
      rcases Nat.lt_trichotomy d e with hde | rfl | hde
      · exact Or.inl hde
      · exact Or.inr ⟨rfl, by omega⟩
      · have hstep : (e + 1) * b ^ ds.length ≤ d * b ^ ds.length := Nat.mul_le_mul_right _ hde
        rw [Nat.add_mul, Nat.one_mul] at hstep
        omega

/-- The last digits of a numeral. -/
theorem value_drop (hb : 1 < b) {ds : List ℕ} (hds : ∀ d ∈ ds, d < b) {k : ℕ}
    (hk : k ≤ ds.length) : value b (ds.drop (ds.length - k)) = value b ds % b ^ k := by
  have hlen : (ds.drop (ds.length - k)).length = k := by
    rw [List.length_drop]
    omega
  have hlast : ∀ d ∈ ds.drop (ds.length - k), d < b := fun d hd => hds d (List.mem_of_mem_drop hd)
  have hlt := value_lt hb hlast
  rw [hlen] at hlt
  conv_rhs => rw [← List.take_append_drop (ds.length - k) ds, value_append, hlen]
  rw [Nat.mul_comm, Nat.mul_add_mod, Nat.mod_eq_of_lt hlt]

/-! ## Addition with a carry -/

/-- One column of an addition: the digits so far, least significant first, and the carry. -/
def column (b : ℕ) (acc : List ℕ × ℕ) (r : ℕ) : List ℕ × ℕ :=
  (acc.1 ++ [(r + acc.2) % b], (r + acc.2) / b)

/-- **The columns add up.** `rs` are the sums of the columns, least significant first.
Induction on the columns. -/
theorem ripple_value (rs : List ℕ) (acc : List ℕ × ℕ) :
    Nat.ofDigits b (rs.foldl (column b) acc).1
        + (rs.foldl (column b) acc).2 * b ^ (rs.foldl (column b) acc).1.length
      = Nat.ofDigits b acc.1 + (Nat.ofDigits b rs + acc.2) * b ^ acc.1.length := by
  induction rs generalizing acc with
  | nil => simp
  | cons r rs ih =>
    have hdiv := Nat.mod_add_div (r + acc.2) b
    rw [List.foldl_cons, ih, column, Nat.ofDigits_append, Nat.ofDigits_singleton,
      Nat.ofDigits_cons, List.length_append, List.length_singleton, Nat.pow_succ]
    calc Nat.ofDigits b acc.1 + b ^ acc.1.length * ((r + acc.2) % b)
          + (Nat.ofDigits b rs + (r + acc.2) / b) * (b ^ acc.1.length * b)
        = Nat.ofDigits b acc.1 + ((r + acc.2) % b + b * ((r + acc.2) / b)
            + b * Nat.ofDigits b rs) * b ^ acc.1.length := by ring
      _ = Nat.ofDigits b acc.1 + (r + b * Nat.ofDigits b rs + acc.2) * b ^ acc.1.length := by
        rw [hdiv]
        ring

/-- Each column adds one digit. -/
theorem ripple_length (rs : List ℕ) (acc : List ℕ × ℕ) :
    (rs.foldl (column b) acc).1.length = acc.1.length + rs.length := by
  induction rs generalizing acc with
  | nil => rfl
  | cons r rs ih =>
    rw [List.foldl_cons, ih, column, List.length_append, List.length_singleton, List.length_cons]
    omega

/-- The carry of columns that are sums of at most two digits is at most one. -/
theorem ripple_carry (hb : 0 < b) {rs : List ℕ} (hrs : ∀ r ∈ rs, r ≤ 2 * (b - 1))
    {acc : List ℕ × ℕ} (hacc : acc.2 ≤ 1) : (rs.foldl (column b) acc).2 ≤ 1 := by
  induction rs generalizing acc with
  | nil => exact hacc
  | cons r rs ih =>
    refine ih (fun x hx => hrs x (List.mem_cons_of_mem r hx)) ?_
    have hr := hrs r List.mem_cons_self
    have hlt : (r + acc.2) / b < 2 := (Nat.div_lt_iff_lt_mul hb).mpr (by omega)
    exact Nat.le_of_lt_succ hlt

end Numeral
