import Mathlib.Order.Lattice
import Mathlib.Logic.Function.Basic
import Mathlib.Data.List.Induction

/-!
# Last-writer-wins stores

A store maps keys to entries that carry a time. A write replaces the entry of its key exactly
when there is none or its own time is strictly greater, so of writes with equal times the
first one applied stays. `Register` names the parts of a write; the results are about lists of
writes applied in order:

* **`Covers`** — the store holds an entry at least as new as a write. Once it does it always
  will, and applying the write again changes nothing.
* **`apply_time`** — the time held for a key never decreases.
* **`apply_of_held`** — of a held entry and the writes of its key, the newest stays.
* **`apply_sorted`** — of writes in the order of their times, the first one with the last time
  stays.
* **`apply_again`**, **`apply_after_prefix`** — applying writes a second time changes nothing;
  this is what makes a replayed log that has been appended to itself harmless.
-/

/-- How a write names its key and the entry it stores, and how an entry names its time. -/
structure Register (W κ E τ : Type*) where
  key : W → κ
  entry : W → E
  time : E → τ

namespace Register

variable {W κ E τ : Type*} [DecidableEq κ] [LinearOrder τ] (R : Register W κ E τ)

/-- The time of a write. -/
def stamp (w : W) : τ := R.time (R.entry w)

/-- The store holds an entry for the key of `w` that is at least as new. -/
def Covers (s : κ → Option E) (w : W) : Prop := ∃ e, s (R.key w) = some e ∧ R.stamp w ≤ R.time e

instance (s : κ → Option E) (w : W) : Decidable (R.Covers s w) :=
  match h : s (R.key w) with
  | none => isFalse fun ⟨_, he, _⟩ => by rw [h] at he; cases he
  | some e => decidable_of_iff (R.stamp w ≤ R.time e)
      ⟨fun hle => ⟨e, h, hle⟩, fun ⟨e', he', hle⟩ => by rw [h] at he'; cases he'; exact hle⟩

/-- One write. -/
def put (s : κ → Option E) (w : W) : κ → Option E :=
  if R.Covers s w then s else Function.update s (R.key w) (some (R.entry w))

/-- A list of writes in order. -/
def apply (s : κ → Option E) (ws : List W) : κ → Option E := ws.foldl R.put s

variable {R} {s : κ → Option E} {w v : W} {ws : List W}

/-- A write that is covered changes nothing. -/
theorem put_of_covers (h : R.Covers s w) : R.put s w = s := if_pos h

/-- A write is covered once it is made. -/
theorem covers_put_self (s : κ → Option E) (w : W) : R.Covers (R.put s w) w := by
  unfold put
  split
  · next h => exact h
  · exact ⟨R.entry w, Function.update_self .., le_rfl⟩

/-- A key keeps an entry, and its time does not decrease. -/
theorem put_time {k : κ} {e : E} (h : s k = some e) :
    ∃ e', R.put s w k = some e' ∧ R.time e ≤ R.time e' := by
  unfold put
  split
  · exact ⟨e, h, le_rfl⟩
  · next hnew =>
    by_cases hk : k = R.key w
    · subst hk
      refine ⟨R.entry w, Function.update_self .., le_of_not_ge fun hle => hnew ⟨e, h, hle⟩⟩
    · exact ⟨e, by rw [Function.update_of_ne hk, h], le_rfl⟩

/-- A write leaves the other keys alone. -/
theorem put_of_ne {k : κ} (hk : R.key w ≠ k) (s : κ → Option E) : R.put s w k = s k := by
  unfold put
  split
  · rfl
  · exact Function.update_of_ne (Ne.symm hk) _ _

/-- What a write leaves for a key depends on that key only. -/
theorem put_congr {s' : κ → Option E} {k : κ} (h : s k = s' k) (w : W) :
    R.put s w k = R.put s' w k := by
  by_cases hk : R.key w = k
  · subst hk
    have hcovers : R.Covers s w ↔ R.Covers s' w := by
      unfold Covers
      rw [h]
    unfold put
    by_cases hw : R.Covers s w
    · rw [if_pos hw, if_pos (hcovers.mp hw), h]
    · rw [if_neg hw, if_neg fun hw' => hw (hcovers.mpr hw'), Function.update_self,
        Function.update_self]
  · rw [put_of_ne hk, put_of_ne hk, h]

/-- What is covered stays covered. -/
theorem Covers.put (h : R.Covers s v) : R.Covers (R.put s w) v := by
  obtain ⟨e, he, hle⟩ := h
  obtain ⟨e', he', hle'⟩ := put_time (R := R) (w := w) he
  exact ⟨e', he', hle.trans hle'⟩

@[simp] theorem apply_nil (s : κ → Option E) : R.apply s [] = s := rfl

theorem apply_cons (s : κ → Option E) (w : W) (ws : List W) :
    R.apply s (w :: ws) = R.apply (R.put s w) ws := rfl

theorem apply_append (s : κ → Option E) (ws vs : List W) :
    R.apply s (ws ++ vs) = R.apply (R.apply s ws) vs := List.foldl_append

/-- After any further writes. -/
theorem Covers.apply (h : R.Covers s v) (ws : List W) : R.Covers (R.apply s ws) v := by
  induction ws generalizing s with
  | nil => exact h
  | cons w ws ih => exact ih h.put

/-- All writes that have been applied are covered. -/
theorem covers_apply (s : κ → Option E) (h : w ∈ ws) : R.Covers (R.apply s ws) w := by
  induction ws generalizing s with
  | nil => cases h
  | cons v ws ih =>
    rcases List.mem_cons.mp h with rfl | h
    · exact (covers_put_self s w).apply ws
    · exact ih (R.put s v) h

/-- Writes that are covered may be applied again. -/
theorem apply_of_covers (h : ∀ w ∈ ws, R.Covers s w) : R.apply s ws = s := by
  induction ws with
  | nil => rfl
  | cons w ws ih =>
    rw [apply_cons, put_of_covers (h w List.mem_cons_self)]
    exact ih fun v hv => h v (List.mem_cons_of_mem w hv)

/-- **Applying a list again changes nothing**: the store covers all of it. -/
theorem apply_again (s : κ → Option E) (ws : List W) : R.apply s (ws ++ ws) = R.apply s ws := by
  rw [apply_append]
  exact apply_of_covers fun w hw => covers_apply s hw

/-- Applying the first writes once more changes nothing. -/
theorem apply_after_prefix (s : κ → Option E) {ws vs : List W} (h : ws <+: vs) :
    R.apply s (ws ++ vs) = R.apply s vs := by
  obtain ⟨rest, rfl⟩ := h
  rw [← List.append_assoc, apply_append, apply_again, apply_append]

/-- The time of a key never goes back. -/
theorem apply_time {k : κ} {e : E} (h : s k = some e) (ws : List W) :
    ∃ e', R.apply s ws k = some e' ∧ R.time e ≤ R.time e' := by
  induction ws generalizing s e with
  | nil => exact ⟨e, h, le_rfl⟩
  | cons w ws ih =>
    obtain ⟨e₁, he₁, hle₁⟩ := put_time (R := R) (w := w) h
    obtain ⟨e₂, he₂, hle₂⟩ := ih he₁
    exact ⟨e₂, he₂, hle₁.trans hle₂⟩

/-- Writes of other keys leave a key alone. -/
theorem apply_of_ne {k : κ} (h : ∀ w ∈ ws, R.key w ≠ k) (s : κ → Option E) :
    R.apply s ws k = s k := by
  induction ws generalizing s with
  | nil => rfl
  | cons w ws ih =>
    rw [apply_cons, ih fun v hv => h v (List.mem_cons_of_mem w hv)]
    exact put_of_ne (h w List.mem_cons_self) s

/-- What a key becomes depends on the key only. -/
theorem apply_congr {s' : κ → Option E} {k : κ} (h : s k = s' k) (ws : List W) :
    R.apply s ws k = R.apply s' ws k := by
  induction ws generalizing s s' with
  | nil => exact h
  | cons w ws ih => exact ih (put_congr h w)

/-- Only the writes of a key matter to it. -/
theorem apply_filter (s : κ → Option E) (ws : List W) (k : κ) :
    R.apply s ws k = R.apply s (ws.filter fun w => R.key w = k) k := by
  induction ws generalizing s with
  | nil => rfl
  | cons w ws ih =>
    rw [List.filter_cons]
    by_cases hk : R.key w = k
    · rw [if_pos (decide_eq_true hk)]
      exact ih (R.put s w)
    · rw [if_neg (by simpa using hk), ← ih s]
      exact apply_congr (put_of_ne hk s) ws

/-- The newest of an entry and those that come after it, of several with its time the first. -/
def newest (R : Register W κ E τ) (e : E) (es : List E) : E :=
  es.foldl (fun e e' => if R.time e' ≤ R.time e then e else e') e

/-- **What stays of a held entry** and the writes of its key. -/
theorem apply_of_held {k : κ} {e : E} (h : s k = some e) (hkeys : ∀ w ∈ ws, R.key w = k) :
    R.apply s ws k = some (R.newest e (ws.map R.entry)) := by
  induction ws generalizing s e with
  | nil => exact h
  | cons w ws ih =>
    have hkey : R.key w = k := hkeys w List.mem_cons_self
    refine ih ?_ fun v hv => hkeys v (List.mem_cons_of_mem w hv)
    subst hkey
    show R.put s w (R.key w) = some (if R.time (R.entry w) ≤ R.time e then e else R.entry w)
    by_cases hle : R.time (R.entry w) ≤ R.time e
    · rw [put_of_covers ⟨e, h, hle⟩, h, if_pos hle]
    · have hnew : ¬ R.Covers s w := by
        rintro ⟨e', he', hle'⟩
        rw [h] at he'
        exact hle (Option.some.inj he' ▸ hle')
      rw [put, if_neg hnew, Function.update_self, if_neg hle]

omit [DecidableEq κ] in
/-- Nothing newer comes after the entry. -/
theorem newest_of_le {e : E} {es : List E} (h : ∀ e' ∈ es, R.time e' ≤ R.time e) :
    R.newest e es = e := by
  induction es with
  | nil => rfl
  | cons e' es ih =>
    rw [newest, List.foldl_cons, if_pos (h e' List.mem_cons_self)]
    exact ih fun x hx => h x (List.mem_cons_of_mem e' hx)

omit [DecidableEq κ] in
/-- In a sorted list no time is after the last one. -/
theorem sorted_le_last (hsorted : ws.Pairwise fun v w => R.stamp v ≤ R.stamp w)
    (hlast : ws.getLast? = some w) (hv : v ∈ ws) : R.stamp v ≤ R.stamp w := by
  obtain ⟨init, rfl⟩ := List.getLast?_eq_some_iff.mp hlast
  rcases List.mem_append.mp hv with hinit | hw
  · exact (List.pairwise_append.mp hsorted).2.2 v hinit w List.mem_cons_self
  · rw [List.mem_singleton.mp hw]

/-- **Writes in the order of their times.** From an empty slot, the first write with the time of
the last one stays. Induction from the end: a write with a new time replaces the entry, and
one with the same time does not. -/
theorem apply_sorted {k : κ} (hs : s k = none) {last : W} (hkeys : ∀ w ∈ ws, R.key w = k)
    (hsorted : ws.Pairwise fun v w => R.stamp v ≤ R.stamp w) (hlast : ws.getLast? = some last) :
    R.apply s ws k = (ws.find? fun w => R.stamp w = R.stamp last).map R.entry := by
  induction ws using List.reverseRecOn generalizing last with
  | nil => cases hlast
  | append_singleton ws w ih =>
    rw [List.getLast?_concat, Option.some.injEq] at hlast
    subst hlast
    obtain ⟨hsorted, -, hle⟩ := List.pairwise_append.mp hsorted
    have hkey : R.key w = k := hkeys w (List.mem_append_right _ List.mem_cons_self)
    have hbefore := fun v (hv : v ∈ ws) => hle v hv w List.mem_cons_self
    rw [apply_append, apply_cons, apply_nil, List.find?_append]
    cases hprev : ws.getLast? with
    | none =>
      obtain rfl := List.getLast?_eq_none_iff.mp hprev
      have hnew : ¬ R.Covers s w := by
        rintro ⟨e, he, -⟩
        rw [hkey, hs] at he
        cases he
      rw [apply_nil, put, if_neg hnew, ← hkey, Function.update_self]
      simp
    | some prev =>
      have hprevMem : prev ∈ ws := List.mem_of_getLast? hprev
      have hheld := ih (fun v hv => hkeys v (List.mem_append_left _ hv)) hsorted hprev
      have hfirst : ∃ first, ws.find? (fun v => R.stamp v = R.stamp prev) = some first :=
        Option.isSome_iff_exists.mp (List.find?_isSome.mpr ⟨prev, hprevMem, decide_eq_true rfl⟩)
      obtain ⟨first, hfirst⟩ := hfirst
      have hstamp : R.stamp first = R.stamp prev := by
        have hsome := List.find?_some hfirst
        exact of_decide_eq_true hsome
      rw [hfirst, Option.map_some] at hheld
      rcases (hbefore prev hprevMem).lt_or_eq with hlt | heq
      · -- a new time
        have hnew : ¬ R.Covers (R.apply s ws) w := by
          rintro ⟨e, he, hle⟩
          rw [hkey, hheld] at he
          obtain rfl := Option.some.inj he
          exact absurd (hlt.trans_le hle) (not_lt.mpr hstamp.le)
        have hnone : ws.find? (fun v => R.stamp v = R.stamp w) = none := by
          rw [List.find?_eq_none]
          intro v hv hvw
          have hvprev : R.stamp v ≤ R.stamp prev := sorted_le_last hsorted hprev hv
          rw [of_decide_eq_true hvw] at hvprev
          exact absurd hlt (not_lt.mpr hvprev)
        rw [put, if_neg hnew, ← hkey, Function.update_self, hnone]
        simp
      · have hcovers : R.Covers (R.apply s ws) w :=
          ⟨R.entry first, by rw [hkey, hheld], (heq.symm.trans hstamp.symm).le⟩
        rw [put_of_covers hcovers, hheld, ← heq, hfirst]
        rfl

end Register
