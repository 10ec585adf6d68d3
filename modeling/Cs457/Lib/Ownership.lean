import Mathlib.Data.Set.Insert
import Mathlib.Logic.Function.Basic

/-!
# Ownership

A table of resources of which each is either one of those that were there before or owned by
exactly one object. Acquiring, releasing and handing on are the operations that keep it so.

* **`Sound`** — nothing is owned twice, nothing that is owned is closed, nothing leaks.
* **`Sound.acquire`**, **`Sound.release`**, **`Sound.transfer`** — the operations.
-/

namespace Ownership

variable {ι H : Type} {base : Set H}

/-- What each object owns, and what is open. -/
structure Table (ι H : Type) where
  owner : ι → Option H
  opened : Set H

/-- **The invariant**: what is open was there before or has an owner. -/
structure Sound (base : Set H) (t : Table ι H) : Prop where
  opened : ∀ x h, t.owner x = some h → h ∈ t.opened
  foreign : ∀ x h, t.owner x = some h → h ∉ base
  unique : ∀ x y h, t.owner x = some h → t.owner y = some h → x = y
  kept : base ⊆ t.opened
  held : ∀ h ∈ t.opened, h ∈ base ∨ ∃ x, t.owner x = some h

namespace Sound

/-- What is there before anything is acquired. -/
theorem start (base : Set H) : Sound base (⟨fun _ : ι => none, base⟩ : Table ι H) where
  opened _ _ hx := nomatch hx
  foreign _ _ hx := nomatch hx
  unique _ _ _ hx := nomatch hx
  kept := subset_rfl
  held _ hh := Or.inl hh

variable [DecidableEq ι] {t : Table ι H} {x y : ι} {h : H}

/-- An object that owns nothing acquires what is not open. -/
theorem acquire (hs : Sound base t) (hx : t.owner x = none) (hh : h ∉ t.opened) :
    Sound base ⟨Function.update t.owner x (some h), insert h t.opened⟩ := by
  -- Only the owner `x` changes, and it holds the new handle.
  have hcases : ∀ {z k}, Function.update t.owner x (some h) z = some k →
      z = x ∧ k = h ∨ z ≠ x ∧ t.owner z = some k := by
    intro z k hz
    by_cases hzx : z = x
    · rw [hzx, Function.update_self] at hz
      exact Or.inl ⟨hzx, (Option.some.inj hz).symm⟩
    · rw [Function.update_of_ne hzx] at hz
      exact Or.inr ⟨hzx, hz⟩
  refine ⟨fun z k hz => ?_, fun z k hz => ?_, fun z w k hz hw => ?_,
    hs.kept.trans (Set.subset_insert _ _), fun k hk => ?_⟩
  · rcases hcases hz with ⟨_, rfl⟩ | ⟨_, hz⟩
    · exact Set.mem_insert _ _
    · exact Set.mem_insert_of_mem _ (hs.opened z k hz)
  · rcases hcases hz with ⟨_, rfl⟩ | ⟨_, hz⟩
    · exact fun hbase => hh (hs.kept hbase)
    · exact hs.foreign z k hz
  · -- The new handle was not open, so nobody else holds it.
    rcases hcases hz with ⟨hzx, hkh⟩ | ⟨_, hz'⟩
    · rcases hcases hw with ⟨hwx, _⟩ | ⟨_, hw'⟩
      · rw [hzx, hwx]
      · exact absurd (hs.opened w k hw') (hkh ▸ hh)
    · rcases hcases hw with ⟨_, hkh⟩ | ⟨_, hw'⟩
      · exact absurd (hs.opened z k hz') (hkh ▸ hh)
      · exact hs.unique z w k hz' hw'
  · rcases Set.mem_insert_iff.mp hk with rfl | hk
    · exact Or.inr ⟨x, Function.update_self _ _ _⟩
    · rcases hs.held k hk with hbase | ⟨z, hz⟩
      · exact Or.inl hbase
      · have hzx : z ≠ x := by
          rintro rfl
          rw [hx] at hz
          cases hz
        exact Or.inr ⟨z, (Function.update_of_ne hzx _ _).trans hz⟩

/-- An owner closes what it owns. -/
theorem release (hs : Sound base t) (hx : t.owner x = some h) :
    Sound base ⟨Function.update t.owner x none, t.opened \ {h}⟩ := by
  -- Every other owner holds what it held.
  have hcases : ∀ {z k}, Function.update t.owner x none z = some k →
      z ≠ x ∧ t.owner z = some k := by
    intro z k hz
    by_cases hzx : z = x
    · rw [hzx, Function.update_self] at hz
      cases hz
    · rw [Function.update_of_ne hzx] at hz
      exact ⟨hzx, hz⟩
  refine ⟨fun z k hz => ?_, fun z k hz => hs.foreign z k (hcases hz).2,
    fun z w k hz hw => hs.unique z w k (hcases hz).2 (hcases hw).2, fun k hk => ?_,
    fun k hk => ?_⟩
  · obtain ⟨hzx, hz⟩ := hcases hz
    refine ⟨hs.opened z k hz, fun hkh => hzx ?_⟩
    rw [Set.mem_singleton_iff.mp hkh] at hz
    exact hs.unique z x h hz hx
  · refine ⟨hs.kept hk, fun hkh => ?_⟩
    rw [Set.mem_singleton_iff.mp hkh] at hk
    exact hs.foreign x h hx hk
  · rcases hs.held k hk.1 with hbase | ⟨z, hz⟩
    · exact Or.inl hbase
    · have hzx : z ≠ x := by
        rintro rfl
        rw [hx, Option.some.injEq] at hz
        exact hk.2 (Set.mem_singleton_iff.mpr hz.symm)
      exact Or.inr ⟨z, (Function.update_of_ne hzx _ _).trans hz⟩

/-- What one object owns is handed on to another, which has owned nothing. -/
theorem transfer (hs : Sound base t) (hxy : x ≠ y) (hx : t.owner x = none) :
    Sound base ⟨Function.update (Function.update t.owner x (t.owner y)) y none, t.opened⟩ := by
  -- `swap` says whose property it was before
  let swap (z : ι) : ι := if z = x then y else z
  have hcases : ∀ {z k},
      Function.update (Function.update t.owner x (t.owner y)) y none z = some k →
        z ≠ y ∧ t.owner (swap z) = some k := by
    intro z k hz
    by_cases hzy : z = y
    · rw [hzy, Function.update_self] at hz
      cases hz
    · rw [Function.update_of_ne hzy] at hz
      by_cases hzx : z = x
      · rw [hzx, Function.update_self] at hz
        exact ⟨hzy, by simp only [swap, if_pos hzx, hz]⟩
      · rw [Function.update_of_ne hzx] at hz
        exact ⟨hzy, by simp only [swap, if_neg hzx, hz]⟩
  refine ⟨fun z k hz => hs.opened _ k (hcases hz).2, fun z k hz => hs.foreign _ k (hcases hz).2,
    fun z w k hz hw => ?_, hs.kept, fun k hk => ?_⟩
  · obtain ⟨hzy, hz⟩ := hcases hz
    obtain ⟨hwy, hw⟩ := hcases hw
    have hsame := hs.unique _ _ k hz hw
    by_cases hzx : z = x <;> by_cases hwx : w = x
    · rw [hzx, hwx]
    · simp only [swap, if_pos hzx, if_neg hwx] at hsame
      exact absurd hsame.symm hwy
    · simp only [swap, if_neg hzx, if_pos hwx] at hsame
      exact absurd hsame hzy
    · simpa only [swap, if_neg hzx, if_neg hwx] using hsame
  · rcases hs.held k hk with hbase | ⟨z, hz⟩
    · exact Or.inl hbase
    · refine Or.inr ?_
      by_cases hzy : z = y
      · refine ⟨x, (Function.update_of_ne hxy _ _).trans ?_⟩
        exact (Function.update_self _ _ _).trans (hzy ▸ hz)
      · have hzx : z ≠ x := by
          rintro rfl
          rw [hx] at hz
          cases hz
        exact ⟨z, (Function.update_of_ne hzy _ _).trans ((Function.update_of_ne hzx _ _).trans hz)⟩

end Sound

end Ownership
