import Mathlib.Data.List.AList
import Mathlib.Algebra.BigOperators.Ring.Finset

/-!
# Hash maps as association lists without duplicate keys

`std::unordered_map` is modelled by Mathlib's `AList`: each key occurs once and the order of
the entries carries no meaning. `emplace` keeps the entry of a key that is already present,
as the standard library's does; an assignment through `at` is `AList.insert`.
-/

/-- A finite map from `α` to `β`. -/
abbrev UnorderedMap (α β : Type*) := AList (fun _ : α => β)

namespace UnorderedMap

variable {α β : Type*} [DecidableEq α]

/-- `emplace`: a new entry, unless the key is taken. -/
def emplace (m : UnorderedMap α β) (k : α) (v : β) : UnorderedMap α β :=
  if k ∈ m then m else m.insert k v

@[simp] theorem mem_emplace {m : UnorderedMap α β} {k x : α} {v : β} :
    x ∈ m.emplace k v ↔ x = k ∨ x ∈ m := by
  unfold emplace
  split
  · next h =>
    constructor
    · exact Or.inr
    · rintro (rfl | hx)
      · exact h
      · exact hx
  · exact AList.mem_insert m

/-- A key that is not there gets the value. -/
theorem lookup_emplace_self {m : UnorderedMap α β} {k : α} {v : β} (h : k ∉ m) :
    (m.emplace k v).lookup k = some v := by
  rw [emplace, if_neg h, AList.lookup_insert]

/-- The other keys keep theirs. -/
theorem lookup_emplace_ne {m : UnorderedMap α β} {k x : α} {v : β} (h : x ≠ k) :
    (m.emplace k v).lookup x = m.lookup x := by
  unfold emplace
  split
  · rfl
  · exact AList.lookup_insert_ne h

/-- Whatever a map holds for a key, `emplace` leaves there. -/
theorem lookup_emplace_of_some {m : UnorderedMap α β} {k x : α} {v w : β}
    (h : m.lookup x = some w) : (m.emplace k v).lookup x = some w := by
  unfold emplace
  split
  · exact h
  · next hk =>
    have hne : x ≠ k := by
      rintro rfl
      exact hk (AList.lookup_isSome.mp (by rw [h]; rfl))
    rw [AList.lookup_insert_ne hne, h]

/-- `emplace` in one line. -/
theorem lookup_emplace {m : UnorderedMap α β} {k x : α} {v : β} :
    (m.emplace k v).lookup x = (m.lookup x).or (if x = k then some v else none) := by
  by_cases hx : x = k
  · subst hx
    rw [if_pos rfl]
    cases hm : m.lookup x with
    | none => exact lookup_emplace_self (AList.lookup_eq_none.mp hm)
    | some w => exact lookup_emplace_of_some hm
  · rw [lookup_emplace_ne hx, if_neg hx, Option.or_none]

/-- The first of the values that are put in for a key stays. -/
theorem lookup_foldl_emplace {m : UnorderedMap α β} {x : α} {v : β} (ks : List α) :
    (ks.foldl (fun m k => m.emplace k v) m).lookup x =
      (m.lookup x).or (if x ∈ ks then some v else none) := by
  induction ks generalizing m with
  | nil => simp
  | cons k ks ih =>
    rw [List.foldl_cons, ih, lookup_emplace, Option.or_assoc]
    congr 1
    by_cases hx : x = k
    · simp [hx]
    · simp [hx]

/-- An entry after `emplace` is the new one or was there. -/
theorem of_lookup_emplace {m : UnorderedMap α β} {k x : α} {v w : β}
    (h : (m.emplace k v).lookup x = some w) : x = k ∧ w = v ∨ m.lookup x = some w := by
  by_cases hx : x = k
  · subst hx
    unfold emplace at h
    split at h
    · exact Or.inr h
    · rw [AList.lookup_insert] at h
      exact Or.inl ⟨rfl, (Option.some.inj h).symm⟩
  · rw [lookup_emplace_ne hx] at h
    exact Or.inr h

/-- A new entry changes one lookup. -/
theorem lookup_emplace_of_notMem {m : UnorderedMap α β} {k : α} (h : k ∉ m) (v : β) (x : α) :
    (m.emplace k v).lookup x = if x = k then some v else m.lookup x := by
  split
  · next hx =>
    subst hx
    exact lookup_emplace_self h
  · next hx => exact lookup_emplace_ne hx

/-- An assignment changes one lookup. -/
theorem lookup_insert_eq (m : UnorderedMap α β) (k : α) (v : β) (x : α) :
    (m.insert k v).lookup x = if x = k then some v else m.lookup x := by
  split
  · next hx =>
    subst hx
    exact AList.lookup_insert m
  · next hx => exact AList.lookup_insert_ne hx

/-- What is found after an insertion was inserted or was there before. -/
theorem of_lookup_insert {m : UnorderedMap α β} {k x : α} {v w : β}
    (h : (m.insert k v).lookup x = some w) : x = k ∧ w = v ∨ x ≠ k ∧ m.lookup x = some w := by
  rw [lookup_insert_eq] at h
  split at h
  · next hx => exact Or.inl ⟨hx, (Option.some.inj h).symm⟩
  · next hx => exact Or.inr ⟨hx, h⟩

theorem mem_iff_exists_lookup {m : UnorderedMap α β} {k : α} :
    k ∈ m ↔ ∃ v, m.lookup k = some v := by
  rw [← AList.lookup_isSome, Option.isSome_iff_exists]

/-- An entry is found under its key. -/
theorem lookup_of_mem_entries {m : UnorderedMap α β} {k : α} {v : β}
    (h : (⟨k, v⟩ : Sigma fun _ : α => β) ∈ m.entries) : m.lookup k = some v :=
  Option.mem_def.mp (AList.mem_lookup_iff.mpr h)

/-- A sum over the entries of a map is a sum over its keys. -/
theorem sum_entries (m : UnorderedMap α β) (S : Finset α) (hS : ∀ k, k ∈ S ↔ k ∈ m)
    (f : α → β → ℕ) (g : α → ℕ) (hg : ∀ k v, m.lookup k = some v → g k = f k v) :
    (m.entries.map fun e => f e.1 e.2).sum = ∑ k ∈ S, g k := by
  have hkeys : S = m.keys.toFinset := by
    ext k
    rw [hS, List.mem_toFinset, AList.mem_keys]
  rw [hkeys, List.sum_toFinset g m.keys_nodup, AList.keys, List.keys, List.map_map]
  congr 1
  refine List.map_congr_left fun e he => ?_
  exact (hg e.1 e.2 (lookup_of_mem_entries he)).symm

end UnorderedMap
