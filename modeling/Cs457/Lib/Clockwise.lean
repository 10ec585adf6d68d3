import Mathlib.Order.Lattice
import Mathlib.Data.List.Pairwise

/-!
# Points on a circle

The elements of a list carry pairwise distinct points of a linear order, in ascending order,
and the order is closed to a circle: behind the last point comes the first. `atOrAfter` and
`before` find the neighbours of a point; the relations `IsAtOrAfter`, `IsBefore` and `IsAfter`
say what they are.

* **`atOrAfter_eq_some_iff`**, **`before_eq_some_iff`** — the two searches.
* **`isAfter_iff_isBefore`** — on the circle, next and previous are inverse.
-/

namespace Clockwise

variable {ι α : Type*} [LinearOrder α] {f : ι → α} {l : List ι}

/-- The points ascend. -/
def Ascending (f : ι → α) (l : List ι) : Prop := l.Pairwise fun x y => f x < f y

/-- The first element at or after `k`, or else the first one. -/
def atOrAfter (f : ι → α) (l : List ι) (k : α) : Option ι :=
  (l.find? fun x => k ≤ f x).or l.head?

/-- The last element before `k`, or else the last one. -/
def before (f : ι → α) (l : List ι) (k : α) : Option ι :=
  (l.reverse.find? fun x => f x < k).or l.getLast?

/-- `x` has the least point. -/
def IsFirst (f : ι → α) (l : List ι) (x : ι) : Prop := x ∈ l ∧ ∀ y ∈ l, f x ≤ f y

/-- `x` has the greatest point. -/
def IsLast (f : ι → α) (l : List ι) (x : ι) : Prop := x ∈ l ∧ ∀ y ∈ l, f y ≤ f x

/-- `x` has the least point not below `k`, or the least of all when all are below `k`. -/
def IsAtOrAfter (f : ι → α) (l : List ι) (k : α) (x : ι) : Prop :=
  (x ∈ l ∧ k ≤ f x ∧ ∀ y ∈ l, k ≤ f y → f x ≤ f y) ∨ ((∀ y ∈ l, f y < k) ∧ IsFirst f l x)

/-- `x` has the greatest point below `k`, or the greatest of all when none is below `k`. -/
def IsBefore (f : ι → α) (l : List ι) (k : α) (x : ι) : Prop :=
  (x ∈ l ∧ f x < k ∧ ∀ y ∈ l, f y < k → f y ≤ f x) ∨ ((∀ y ∈ l, k ≤ f y) ∧ IsLast f l x)

/-- `x` has the least point above `k`, or the least of all when none is above `k`. -/
def IsAfter (f : ι → α) (l : List ι) (k : α) (x : ι) : Prop :=
  (x ∈ l ∧ k < f x ∧ ∀ y ∈ l, k < f y → f x ≤ f y) ∨ ((∀ y ∈ l, f y ≤ k) ∧ IsFirst f l x)

theorem IsAtOrAfter.mem {k : α} {x : ι} (h : IsAtOrAfter f l k x) : x ∈ l :=
  h.elim And.left fun h => h.2.1

theorem IsBefore.mem {k : α} {x : ι} (h : IsBefore f l k x) : x ∈ l :=
  h.elim And.left fun h => h.2.1

theorem IsAfter.mem {k : α} {x : ι} (h : IsAfter f l k x) : x ∈ l :=
  h.elim And.left fun h => h.2.1

/-! ## Uniqueness -/

/-- Elements with one key are one element. -/
theorem Ascending.inj (h : Ascending f l) {x y : ι} (hx : x ∈ l) (hy : y ∈ l) (hxy : f x = f y) :
    x = y := by
  have hne : l.Pairwise fun x y => f x ≠ f y := h.imp ne_of_lt
  have : Std.Symm fun x y => f x ≠ f y := ⟨fun _ _ => Ne.symm⟩
  by_contra hdiff
  exact hne.forall hx hy hdiff hxy

theorem IsFirst.unique (h : Ascending f l) {x y : ι} (hx : IsFirst f l x) (hy : IsFirst f l y) :
    x = y :=
  h.inj hx.1 hy.1 (le_antisymm (hx.2 y hy.1) (hy.2 x hx.1))

theorem IsLast.unique (h : Ascending f l) {x y : ι} (hx : IsLast f l x) (hy : IsLast f l y) :
    x = y :=
  h.inj hx.1 hy.1 (le_antisymm (hy.2 x hx.1) (hx.2 y hy.1))

/-- There is one element at or after a key. -/
theorem IsAtOrAfter.unique (h : Ascending f l) {k : α} {x y : ι} (hx : IsAtOrAfter f l k x)
    (hy : IsAtOrAfter f l k y) : x = y := by
  rcases hx with ⟨hxl, hkx, hx⟩ | ⟨hall, hx⟩
  · rcases hy with ⟨hyl, hky, hy⟩ | ⟨hall, _⟩
    · exact h.inj hxl hyl (le_antisymm (hx y hyl hky) (hy x hxl hkx))
    · exact absurd (hall x hxl) (not_lt.mpr hkx)
  · rcases hy with ⟨hyl, hky, _⟩ | ⟨_, hy⟩
    · exact absurd (hall y hyl) (not_lt.mpr hky)
    · exact hx.unique h hy

/-- There is one before it. -/
theorem IsBefore.unique (h : Ascending f l) {k : α} {x y : ι} (hx : IsBefore f l k x)
    (hy : IsBefore f l k y) : x = y := by
  rcases hx with ⟨hxl, hkx, hx⟩ | ⟨hall, hx⟩
  · rcases hy with ⟨hyl, hky, hy⟩ | ⟨hall, _⟩
    · exact h.inj hxl hyl (le_antisymm (hy x hxl hkx) (hx y hyl hky))
    · exact absurd hkx (not_lt.mpr (hall x hxl))
  · rcases hy with ⟨hyl, hky, _⟩ | ⟨_, hy⟩
    · exact absurd hky (not_lt.mpr (hall y hyl))
    · exact hx.unique h hy

/-- And one after it. -/
theorem IsAfter.unique (h : Ascending f l) {k : α} {x y : ι} (hx : IsAfter f l k x)
    (hy : IsAfter f l k y) : x = y := by
  rcases hx with ⟨hxl, hkx, hx⟩ | ⟨hall, hx⟩
  · rcases hy with ⟨hyl, hky, hy⟩ | ⟨hall, _⟩
    · exact h.inj hxl hyl (le_antisymm (hx y hyl hky) (hy x hxl hkx))
    · exact absurd hkx (not_lt.mpr (hall x hxl))
  · rcases hy with ⟨hyl, hky, _⟩ | ⟨_, hy⟩
    · exact absurd hky (not_lt.mpr (hall y hyl))
    · exact hx.unique h hy

/-! ## The searches -/

/-- The head of the list is first. -/
theorem Ascending.isFirst_head (h : Ascending f l) {x : ι} (hx : l.head? = some x) :
    IsFirst f l x := by
  obtain ⟨t, rfl⟩ := List.head?_eq_some_iff.mp hx
  refine ⟨List.mem_cons_self, fun y hy => ?_⟩
  rcases List.mem_cons.mp hy with rfl | hy
  · exact le_rfl
  · exact (List.rel_of_pairwise_cons h hy).le

/-- Its end is last. -/
theorem Ascending.isLast_getLast (h : Ascending f l) {x : ι} (hx : l.getLast? = some x) :
    IsLast f l x := by
  obtain ⟨t, rfl⟩ := List.getLast?_eq_some_iff.mp hx
  refine ⟨List.mem_append_right _ List.mem_cons_self, fun y hy => ?_⟩
  rcases List.mem_append.mp hy with hy | hy
  · exact ((List.pairwise_append.mp h).2.2 y hy x List.mem_cons_self).le
  · exact (List.mem_singleton.mp hy ▸ le_rfl)

/-- The search finds the element at or after the key, or wraps to the first. -/
theorem isAtOrAfter_of_eq_some (h : Ascending f l) {k : α} {x : ι}
    (hx : atOrAfter f l k = some x) : IsAtOrAfter f l k x := by
  unfold atOrAfter at hx
  rcases Option.or_eq_some_iff.mp hx with hx | ⟨hnone, hx⟩
  · -- the elements ahead of the first hit are below `k`, those behind it are above it
    obtain ⟨hk, as, bs, rfl, has⟩ := List.find?_eq_some_iff_append.mp hx
    refine Or.inl ⟨by simp, by simpa using hk, fun y hy hky => ?_⟩
    rcases List.mem_append.mp hy with hy | hy
    · exact absurd hky (by simpa using has y hy)
    · rcases List.mem_cons.mp hy with rfl | hy
      · exact le_rfl
      · exact (List.rel_of_pairwise_cons (List.pairwise_append.mp h).2.1 hy).le
  · refine Or.inr ⟨fun y hy => ?_, h.isFirst_head hx⟩
    simpa using List.find?_eq_none.mp hnone y hy

/-- The search finds the element before the key, or wraps to the last. -/
theorem isBefore_of_eq_some (h : Ascending f l) {k : α} {x : ι}
    (hx : before f l k = some x) : IsBefore f l k x := by
  unfold before at hx
  rcases Option.or_eq_some_iff.mp hx with hx | ⟨hnone, hx⟩
  · obtain ⟨hk, as, bs, hl, has⟩ := List.find?_eq_some_iff_append.mp hx
    have hmem : ∀ y, y ∈ l ↔ y ∈ as ++ x :: bs := fun y => by rw [← hl, List.mem_reverse]
    have hdesc : (as ++ x :: bs).Pairwise fun a b => f b < f a := by
      rw [← hl, List.pairwise_reverse]
      exact h
    refine Or.inl ⟨(hmem x).mpr (by simp), by simpa using hk, fun y hy hyk => ?_⟩
    rcases List.mem_append.mp ((hmem y).mp hy) with hy | hy
    · exact absurd hyk (by simpa using has y hy)
    · rcases List.mem_cons.mp hy with rfl | hy
      · exact le_rfl
      · exact (List.rel_of_pairwise_cons (List.pairwise_append.mp hdesc).2.1 hy).le
  · refine Or.inr ⟨fun y hy => ?_, h.isLast_getLast hx⟩
    simpa using List.find?_eq_none.mp hnone y (List.mem_reverse.mpr hy)

/-- A list that is not empty has an element at or after every key. -/
theorem exists_atOrAfter (hne : l ≠ []) (k : α) : ∃ x, atOrAfter f l k = some x := by
  obtain ⟨x, t, rfl⟩ := List.exists_cons_of_ne_nil hne
  rw [← Option.isSome_iff_exists, atOrAfter, Option.isSome_or, List.head?_cons]
  simp

/-- And one before it. -/
theorem exists_before (hne : l ≠ []) (k : α) : ∃ x, before f l k = some x := by
  rw [← Option.isSome_iff_exists, before, Option.isSome_or, List.getLast?_eq_some_getLast hne]
  simp

/-- **The first element at or after a point.** -/
theorem atOrAfter_eq_some_iff (h : Ascending f l) {k : α} {x : ι} :
    atOrAfter f l k = some x ↔ IsAtOrAfter f l k x := by
  refine ⟨isAtOrAfter_of_eq_some h, fun hx => ?_⟩
  obtain ⟨y, hy⟩ := exists_atOrAfter (f := f) (List.ne_nil_of_mem hx.mem) k
  rw [hy, (isAtOrAfter_of_eq_some h hy).unique h hx]

/-- **The last element before a point.** -/
theorem before_eq_some_iff (h : Ascending f l) {k : α} {x : ι} :
    before f l k = some x ↔ IsBefore f l k x := by
  refine ⟨isBefore_of_eq_some h, fun hx => ?_⟩
  obtain ⟨y, hy⟩ := exists_before (f := f) (List.ne_nil_of_mem hx.mem) k
  rw [hy, (isBefore_of_eq_some h hy).unique h hx]

/-- **Next and previous are inverse.** -/
theorem isAfter_iff_isBefore {x y : ι} (hx : x ∈ l) (hy : y ∈ l) :
    IsAfter f l (f x) y ↔ IsBefore f l (f y) x := by
  constructor
  · rintro (⟨_, hlt, hmin⟩ | ⟨hmax, hfirst⟩)
    · refine Or.inl ⟨hx, hlt, fun z hz hzy => ?_⟩
      by_contra hcon
      exact absurd (hmin z hz (not_le.mp hcon)) (not_le.mpr hzy)
    · exact Or.inr ⟨hfirst.2, hx, hmax⟩
  · rintro (⟨_, hlt, hmax⟩ | ⟨hmin, hlast⟩)
    · refine Or.inl ⟨hy, hlt, fun z hz hxz => ?_⟩
      by_contra hcon
      exact absurd (hmax z hz (not_le.mp hcon)) (not_le.mpr hxz)
    · exact Or.inr ⟨hlast.2, hy, hmin⟩

end Clockwise
