import Mathlib.Algebra.Ring.Nat
import Mathlib.Order.Lattice

/-!
# Numbers as base-128 varints

The variable-length numbers of protobuf: seven bits to a byte, the least significant first,
with the top bit set on every byte but the last.

* **`encode_append_inj`** — a varint ends where it says: no varint is the beginning of another.
* **`length_encode_le`** — how many bytes a number takes.
-/

namespace Varint

def encode (n : ℕ) : List UInt8 :=
  if n < 128 then [UInt8.ofNat n] else UInt8.ofNat (n % 128 + 128) :: encode (n / 128)

/-- Seven bits take one byte. -/
theorem encode_of_lt {n : ℕ} (h : n < 128) : encode n = [UInt8.ofNat n] := by
  rw [encode, if_pos h]

/-- More take one byte for the lowest seven, which says that there are more. -/
theorem encode_of_le {n : ℕ} (h : 128 ≤ n) :
    encode n = UInt8.ofNat (n % 128 + 128) :: encode (n / 128) := by
  rw [encode, if_neg (not_lt.mpr h)]

theorem ofNat_inj {a b : ℕ} (ha : a < 256) (hb : b < 256) (h : UInt8.ofNat a = UInt8.ofNat b) :
    a = b := by
  have hnat := congrArg UInt8.toNat h
  rwa [UInt8.toNat_ofNat', UInt8.toNat_ofNat', Nat.mod_eq_of_lt ha, Nat.mod_eq_of_lt hb] at hnat

/-- Induction on the first number: the last byte of a varint is below 128, the others are not. -/
theorem encode_append_inj {n m : ℕ} {x y : List UInt8} (h : encode n ++ x = encode m ++ y) :
    n = m ∧ x = y := by
  induction n using Nat.strongRecOn generalizing m with
  | ind n ih =>
    rcases Nat.lt_or_ge n 128 with hn | hn <;> rcases Nat.lt_or_ge m 128 with hm | hm
    · rw [encode_of_lt hn, encode_of_lt hm] at h
      obtain ⟨hbyte, hrest⟩ := List.cons_eq_cons.mp h
      exact ⟨ofNat_inj (by omega) (by omega) hbyte, hrest⟩
    · rw [encode_of_lt hn, encode_of_le hm] at h
      have hbyte := ofNat_inj (by omega) (by omega) (List.cons_eq_cons.mp h).1
      omega
    · rw [encode_of_le hn, encode_of_lt hm] at h
      have hbyte := ofNat_inj (by omega) (by omega) (List.cons_eq_cons.mp h).1
      omega
    · rw [encode_of_le hn, encode_of_le hm] at h
      obtain ⟨hbyte, hrest⟩ := List.cons_eq_cons.mp h
      obtain ⟨hdiv, hxy⟩ := ih (n / 128) (by omega) hrest
      have hmod := ofNat_inj (by omega) (by omega) hbyte
      exact ⟨by omega, hxy⟩

/-- A number has one encoding. -/
theorem encode_injective {n m : ℕ} (h : encode n = encode m) : n = m :=
  (encode_append_inj (congrArg (· ++ []) h)).1

/-- A number below `128 ^ n` takes `n` bytes at most. -/
theorem length_encode_le {k n : ℕ} (h : n < 128 ^ (k + 1)) : (encode n).length ≤ k + 1 := by
  induction k generalizing n with
  | zero =>
    rw [encode_of_lt (by omega)]
    exact Nat.le_refl 1
  | succ k ih =>
    rcases Nat.lt_or_ge n 128 with hn | hn
    · rw [encode_of_lt hn]
      exact Nat.le_add_left 1 _
    · rw [encode_of_le hn, List.length_cons]
      refine Nat.succ_le_succ (ih ?_)
      rw [Nat.div_lt_iff_lt_mul (by decide), ← Nat.pow_succ]
      exact h

end Varint
