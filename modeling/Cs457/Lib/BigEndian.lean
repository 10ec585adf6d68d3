import Mathlib.Data.List.Basic
import Mathlib.Tactic.Linarith
import Mathlib.Tactic.Ring

/-!
# Big-endian numerals

A number as a fixed count of bytes, the most significant one first, and back. Reading is
defined for bytes of any length, so that a reader that is out of step, and takes part of one
numeral and part of the next for a whole one, has a value too: `ofBytes_append` gives it.
-/

namespace BigEndian

/-- The low `w` bytes of `n`. -/
def toBytes : ℕ → ℕ → List UInt8
  | 0, _ => []
  | w + 1, n => UInt8.ofNat (n / 256 ^ w) :: toBytes w n

/-- The value of a byte string as a numeral to the base 256. -/
def ofBytes : List UInt8 → ℕ
  | [] => 0
  | b :: bs => b.toNat * 256 ^ bs.length + ofBytes bs

@[simp] theorem length_toBytes (w n : ℕ) : (toBytes w n).length = w := by
  induction w with
  | zero => rfl
  | succ w ih => simp [toBytes, ih]

/-- The value of a number in two parts. -/
theorem ofBytes_append (as bs : List UInt8) :
    ofBytes (as ++ bs) = ofBytes as * 256 ^ bs.length + ofBytes bs := by
  induction as with
  | nil => simp [ofBytes]
  | cons a as ih =>
    simp only [List.cons_append, ofBytes, ih, List.length_append, Nat.pow_add]
    ring

/-- A number of `n` bytes. -/
theorem ofBytes_lt (bs : List UInt8) : ofBytes bs < 256 ^ bs.length := by
  induction bs with
  | nil => decide
  | cons b bs ih =>
    have hb := b.toNat_lt
    rw [ofBytes, List.length_cons, Nat.pow_succ]
    nlinarith

/-- Reading what was written keeps the low bytes. -/
theorem ofBytes_toBytes (w n : ℕ) : ofBytes (toBytes w n) = n % 256 ^ w := by
  induction w with
  | zero => simp [toBytes, ofBytes, Nat.mod_one]
  | succ w ih =>
    have hdigit : (UInt8.ofNat (n / 256 ^ w)).toNat = n / 256 ^ w % 256 := UInt8.toNat_ofNat'
    rw [toBytes, ofBytes, ih, hdigit, length_toBytes, Nat.pow_succ, Nat.mod_mul, Nat.add_comm,
      Nat.mul_comm (256 ^ w)]

/-- A number that fits reads back. -/
theorem ofBytes_toBytes_of_lt {w n : ℕ} (h : n < 256 ^ w) : ofBytes (toBytes w n) = n := by
  rw [ofBytes_toBytes, Nat.mod_eq_of_lt h]

/-- Writing what was read. -/
theorem toBytes_ofBytes (bs : List UInt8) : toBytes bs.length (ofBytes bs) = bs := by
  have hlow : ∀ (w m n : ℕ), toBytes w (m * 256 ^ w + n) = toBytes w n := by
    intro w
    induction w with
    | zero => exact fun _ _ => rfl
    | succ w ih =>
      intro m n
      have hsplit : m * 256 ^ (w + 1) + n = m * 256 * 256 ^ w + n := by ring
      have hhigh : (m * 256 * 256 ^ w + n) / 256 ^ w = m * 256 + n / 256 ^ w := by
        rw [Nat.add_comm, Nat.add_mul_div_right _ _ (Nat.pow_pos (by decide)), Nat.add_comm]
      rw [hsplit, toBytes, toBytes, ih, hhigh]
      congr 1
      apply UInt8.toNat_inj.mp
      rw [UInt8.toNat_ofNat', UInt8.toNat_ofNat']
      omega
  induction bs with
  | nil => rfl
  | cons b bs ih =>
    rw [List.length_cons, ofBytes, toBytes, hlow, ih]
    congr 1
    have hlt := ofBytes_lt bs
    rw [Nat.add_comm, Nat.add_mul_div_right _ _ (Nat.pow_pos (by decide)),
      Nat.div_eq_of_lt hlt, Nat.zero_add, UInt8.ofNat_toNat]

/-- The leading bytes of a numeral are the numeral of a quotient. -/
theorem take_toBytes (k j n : ℕ) : (toBytes (k + j) n).take k = toBytes k (n / 256 ^ j) := by
  induction k with
  | zero => rw [List.take_zero, toBytes]
  | succ k ih =>
    rw [Nat.add_right_comm, toBytes, List.take_succ_cons, ih, toBytes, Nat.div_div_eq_div_mul,
      ← Nat.pow_add, Nat.add_comm j k]

end BigEndian
