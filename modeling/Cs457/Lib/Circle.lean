import Mathlib.Data.Nat.Size
import Mathlib.Tactic.Ring
import Mathlib.Tactic.SplitIfs

/-!
# Ways on a circle

A circle of `N` points, the numbers below `N`. A node at `x` has for a distance `p` an entry: the
first of the points of `P` from `x + p` on. The search for it goes along the numbers, and behind
the last of them it does not go on with the points of `P` but has the point `first`, which lies
before all of them.

* **`IsEntry.far`**, **`IsEntry.near`** — an entry is as far away as its distance, and no farther
  than the points it was chosen from.
* **`size_lt_of_jump`** — a way that loses its leading bit.
-/

namespace Circle

variable {N : ℕ}

/-- The way from `a` up to `k`. -/
def gap (N a k : ℕ) : ℕ := if a ≤ k then k - a else k + N - a

/-- The way round is shorter than the circle. -/
theorem gap_lt {a k : ℕ} (hk : k < N) : gap N a k < N := by
  unfold gap
  split <;> omega

/-- Points as far from a third one are one point. -/
theorem eq_of_gap_eq {a b k : ℕ} (ha : a < N) (hb : b < N)
    (h : gap N a k = gap N b k) : a = b := by
  unfold gap at h
  split_ifs at h <;> omega

/-- A point on the way divides it. -/
theorem gap_add {a b k : ℕ} (ha : a < N) (hb : b < N)
    (h : gap N b k ≤ gap N a k) : gap N a b + gap N b k = gap N a k := by
  unfold gap at *
  split_ifs at * <;> omega

/-- A point that comes before another one on the way. -/
theorem gap_le_of_gap_le {a b c k : ℕ} (ha : a < N) (hb : b < N) (hc : c < N) (hk : k < N)
    (hck : gap N c k ≤ gap N a k) (h : gap N a b ≤ gap N a c) :
    gap N c k ≤ gap N b k ∧ gap N b k ≤ gap N a k := by
  unfold gap at *
  split_ifs at * <;> omega

/-! ## Entries -/

/-- What the search from `t` on finds. -/
def IsEntry (P : ℕ → Prop) (first t f : ℕ) : Prop :=
  (P f ∧ t ≤ f ∧ ∀ y, P y → t ≤ y → f ≤ y) ∨ ((∀ y, P y → y < t) ∧ f = first)

variable {P : ℕ → Prop} {first x p f : ℕ}

/-- A step of less than a round passes zero once at most. -/
theorem add_mod_cases {x p : ℕ} (hx : x < N) (hp : p < N) :
    (x + p < N ∧ (x + p) % N = x + p) ∨ (N ≤ x + p ∧ (x + p) % N = x + p - N) := by
  rcases Nat.lt_or_ge (x + p) N with hlt | hge
  · exact Or.inl ⟨hlt, Nat.mod_eq_of_lt hlt⟩
  · refine Or.inr ⟨hge, ?_⟩
    rw [Nat.mod_eq_sub_mod hge, Nat.mod_eq_of_lt (by omega)]

/-- **An entry of a point of `P`** is as far away as its distance says, if it is not the point
itself. -/
theorem IsEntry.far (hx : P x) (hxN : x < N) (hfirst : first < x) (hpN : p < N)
    (h : IsEntry P first ((x + p) % N) f) (hf : f ≠ x) : p ≤ gap N x f := by
  rcases add_mod_cases hxN hpN with ⟨hlt, hmod⟩ | ⟨hge, hmod⟩
  · rw [hmod] at h
    rcases h with ⟨_, htf, _⟩ | ⟨_, rfl⟩
    · rw [gap, if_pos (by omega)]
      omega
    · rw [gap, if_neg (by omega)]
      omega
  · rw [hmod] at h
    rcases h with ⟨_, htf, hmin⟩ | ⟨hall, _⟩
    · -- the start has wrapped, so `x` is one of the points it was chosen from
      have hfx := hmin x hx (by omega)
      rw [gap, if_neg (by omega)]
      omega
    · have hxt := hall x hx
      omega

/-- **An entry is no farther** than a point of `P` that is at least as far as its distance. -/
theorem IsEntry.near {T : ℕ} (hP : ∀ y, P y → y < N) (hT : P T) (hfirst : first < T)
    (hxN : x < N) (hp : 0 < p) (hpN : p < N) (hpT : p ≤ gap N x T)
    (h : IsEntry P first ((x + p) % N) f) : f < N ∧ f ≠ x ∧ gap N x f ≤ gap N x T := by
  have hTN := hP T hT
  have hfN : f < N := by
    rcases h with ⟨hf, _⟩ | ⟨_, rfl⟩
    · exact hP f hf
    · omega
  refine ⟨hfN, ?_⟩
  -- The point `x + p` lies on this side of 0 or beyond it, and the entry is the next point of the
  -- circle or the first one after 0.
  rcases add_mod_cases hxN hpN with ⟨hlt, hmod⟩ | ⟨hge, hmod⟩
  · rw [hmod] at h
    rcases h with ⟨_, htf, hmin⟩ | ⟨hall, rfl⟩
    · have hfT := hmin T hT
      unfold gap at *
      split_ifs at * <;> omega
    · have hTt := hall T hT
      unfold gap at *
      split_ifs at * <;> omega
  · rw [hmod] at h
    rcases h with ⟨_, htf, hmin⟩ | ⟨hall, _⟩
    · have hfT := hmin T hT
      unfold gap at *
      split_ifs at * <;> omega
    · have hTt := hall T hT
      unfold gap at *
      split_ifs at * <;> omega

/-! ## Halving -/

/-- The highest bit of a distance. -/
theorem exists_bit {d : ℕ} (hd : 0 < d) : ∃ i, 2 ^ i ≤ d ∧ d < 2 ^ (i + 1) := by
  obtain ⟨i, hi⟩ := Nat.exists_eq_add_of_lt (Nat.size_pos.mpr hd)
  refine ⟨i, Nat.lt_size.mp (by omega), ?_⟩
  exact Nat.size_le.mp (by omega)

/-- A jump over the leading bit of a way makes it shorter by a bit. -/
theorem size_lt_of_jump {i d d' : ℕ} (hd : 2 ^ i ≤ d) (hbit : d < 2 ^ (i + 1))
    (h : d' + 2 ^ i ≤ d) : d'.size < d.size := by
  have hsize : i < d.size := Nat.lt_size.mpr hd
  have hle : d'.size ≤ i := Nat.size_le.mpr (by omega)
  omega

end Circle
