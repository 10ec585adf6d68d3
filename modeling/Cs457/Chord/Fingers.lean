import Cs457.Chord.Init
import Mathlib.Data.List.Forall2

/-!
# Chord — finger tables

The fingers that `create_fing` should compute, as numbers, and those that it does compute. The
search never looks at the first node of the list, which is the right finger for every target
at or below its id.

* **`isRightFinger_iff`** — when one entry is right.
* **`createFing_right_iff`** — when a whole table is.
-/

namespace Cs457.Chord

/-- The first node clockwise at or after a point of the circle. -/
def IsRightFinger (lst : List NodeID) (target : ℕ) (x : NodeID) : Prop :=
  (x ∈ lst ∧ target ≤ hexValue x.id ∧
    ∀ y ∈ lst, target ≤ hexValue y.id → hexValue x.id ≤ hexValue y.id) ∨
  ((∀ y ∈ lst, hexValue y.id < target) ∧ lst.head? = some x)

/-- Where the `i`-th finger of a node starts. -/
def fingerTarget (id : Str) (i : ℕ) : ℕ := (hexValue id + 2 ^ i) % 2 ^ 256

/-- The table has 256 entries, and all of them are right. -/
def FingersRight (id : Str) (lst : List NodeID) : Prop :=
  ∃ fing, createFing id lst = some fing ∧ fing.length = 256 ∧
    ∀ i < 256, ∃ x, fing[i]? = some x ∧ IsRightFinger lst (fingerTarget id i) x

/-! ## One entry -/

variable {lst rest : List NodeID} {a : NodeID}

/-- **When an entry is right.** The list has one node, or its target lies above the first one. -/
theorem isRightFinger_iff (hids : ∀ x ∈ a :: rest, IsId x.id)
    (hsorted : (a :: rest).Pairwise fun x y => x.id < y.id) {k : Str} (hk : IsId k) {x : NodeID}
    (hx : IsFinger (a :: rest) k x) :
    IsRightFinger (a :: rest) (hexValue k) x ↔ rest = [] ∨ hexValue a.id < hexValue k := by
  have ha : IsId a.id := hids a List.mem_cons_self
  have hrest : ∀ y ∈ rest, IsId y.id := fun y hy => hids y (List.mem_cons_of_mem a hy)
  have habove : ∀ y ∈ rest, hexValue a.id < hexValue y.id := fun y hy =>
    (ha.lt_iff (hrest y hy)).mp (List.rel_of_pairwise_cons hsorted hy)
  rcases hx with ⟨hmem, hkx, hmin⟩ | ⟨hbelow, hhead⟩
  · -- the search has found a node behind the first
    have hxv : hexValue k ≤ hexValue x.id := (hk.le_iff (hrest x hmem)).mp hkx
    constructor
    · rintro (⟨-, -, hleast⟩ | ⟨hall, -⟩)
      · by_contra hnot
        have hka : hexValue k ≤ hexValue a.id := by
          rw [not_or, Nat.not_lt] at hnot
          exact hnot.2
        have hxa := hleast a List.mem_cons_self hka
        have hax := habove x hmem
        omega
      · have hxk := hall x (List.mem_cons_of_mem a hmem)
        omega
    · rintro (hnil | hlt)
      · subst hnil
        cases hmem
      · refine Or.inl ⟨List.mem_cons_of_mem a hmem, hxv, fun y hy hky => ?_⟩
        rcases List.mem_cons.mp hy with rfl | hy
        · omega
        · exact ((hrest x hmem).le_iff (hrest y hy)).mp
            (hmin y hy ((hk.le_iff (hrest y hy)).mpr hky))
  · -- the search has come to the end
    obtain rfl : a = x := Option.some.inj hhead
    have hbelow' : ∀ y ∈ rest, hexValue y.id < hexValue k := fun y hy =>
      ((hrest y hy).lt_iff hk).mp (hbelow y hy)
    constructor
    · intro _
      cases rest with
      | nil => exact Or.inl rfl
      | cons y rest =>
        have hay := habove y List.mem_cons_self
        have hyk := hbelow' y List.mem_cons_self
        exact Or.inr (by omega)
    · intro hcond
      by_cases hlt : hexValue a.id < hexValue k
      · refine Or.inr ⟨fun y hy => ?_, rfl⟩
        rcases List.mem_cons.mp hy with rfl | hy
        · exact hlt
        · exact hbelow' y hy
      · obtain rfl := hcond.resolve_right hlt
        refine Or.inl ⟨List.mem_cons_self, Nat.not_lt.mp hlt, fun y hy _ => ?_⟩
        rw [List.mem_singleton.mp hy]

/-! ## The whole table -/

/-- The addends of `create_fing` are the powers of two. -/
theorem hexValue_addends : addends.map hexValue = (List.range 256).map fun i => 2 ^ i := by
  -- a closed fact about the table of the source
  decide +kernel

theorem length_addends : addends.length = 256 := by
  have hlen := congrArg List.length hexValue_addends
  rwa [List.length_map, List.length_map, List.length_range] at hlen

theorem hexValue_addend {i : ℕ} (hi : i < addends.length) : hexValue addends[i] = 2 ^ i := by
  have hget : (addends.map hexValue)[i]? = ((List.range 256).map fun i => 2 ^ i)[i]? := by
    rw [hexValue_addends]
  rw [length_addends] at hi
  rw [List.getElem?_map, List.getElem?_map, List.getElem?_range hi,
    List.getElem?_eq_getElem (length_addends ▸ hi)] at hget
  exact Option.some.inj hget

/-- The entries of a table, and when each is right. -/
theorem createFing_entries (hids : ∀ x ∈ a :: rest, IsId x.id)
    (hsorted : (a :: rest).Pairwise fun x y => x.id < y.id) {id : Str} (hid : IsId id) :
    ∃ fing, createFing id (a :: rest) = some fing ∧ fing.length = 256 ∧
      ∀ i < 256, ∃ x, fing[i]? = some x ∧
        (IsRightFinger (a :: rest) (fingerTarget id i) x ↔
          rest = [] ∨ hexValue a.id < fingerTarget id i) := by
  obtain ⟨fing, hfing, hall⟩ := createFing_spec hid hsorted (List.cons_ne_nil a rest)
  obtain ⟨hlen, hentries⟩ := List.forall₂_iff_get.mp hall
  rw [length_addends] at hlen
  refine ⟨fing, hfing, hlen.symm, fun i hi => ?_⟩
  obtain ⟨k, hk, hval, hfinger⟩ := hentries i (length_addends ▸ hi) (hlen ▸ hi)
  have htarget : hexValue k = fingerTarget id i := by
    rw [hval, fingerTarget]
    congr 2
    exact hexValue_addend (length_addends ▸ hi)
  refine ⟨fing.get ⟨i, hlen ▸ hi⟩, List.getElem?_eq_getElem (hlen ▸ hi), ?_⟩
  rw [← htarget]
  exact isRightFinger_iff hids hsorted hk hfinger

/-- **Finger tables are right** exactly when the ring has one node, or no finger starts at or
below the least id. -/
theorem createFing_right_iff (hids : ∀ x ∈ a :: rest, IsId x.id)
    (hsorted : (a :: rest).Pairwise fun x y => x.id < y.id) {id : Str}
    (hid : ∃ x ∈ a :: rest, x.id = id) :
    FingersRight id (a :: rest) ↔
      rest = [] ∨ ∀ i < 256, hexValue a.id < fingerTarget id i := by
  have hId : IsId id := by
    obtain ⟨x, hx, rfl⟩ := hid
    exact hids x hx
  obtain ⟨fing, hfing, hlen, hentries⟩ := createFing_entries hids hsorted hId
  constructor
  · rintro ⟨fing', hfing', -, hright⟩
    rw [hfing, Option.some.injEq] at hfing'
    subst hfing'
    refine or_iff_not_imp_left.mpr fun hrest i hi => ?_
    obtain ⟨x, hx, hiff⟩ := hentries i hi
    obtain ⟨y, hy, hyright⟩ := hright i hi
    rw [hx, Option.some.injEq] at hy
    subst hy
    exact (hiff.mp hyright).resolve_left hrest
  · intro hcond
    refine ⟨fing, hfing, hlen, fun i hi => ?_⟩
    obtain ⟨x, hx, hiff⟩ := hentries i hi
    exact ⟨x, hx, hiff.mpr (hcond.imp_right fun hall => hall i hi)⟩

/-- Two nodes, one of which has the greatest id. -/
def nodeFive : NodeID := ⟨List.replicate 63 0x30 ++ [0x35], str "127.0.0.1", 9090⟩

def nodeTop : NodeID := ⟨top, str "127.0.0.1", 9091⟩

/-- The ids of the two nodes have 64 digits. -/
theorem isId_nodes : ∀ x ∈ [nodeFive, nodeTop], IsId x.id := by
  intro x hx
  rcases List.mem_pair.mp hx with rfl | rfl
  · exact ⟨by decide +kernel, rfl⟩
  · exact isId_top

/-- They are sorted. -/
theorem nodes_ascend : [nodeFive, nodeTop].Pairwise fun x y => x.id < y.id := by
  simp only [List.pairwise_cons, List.mem_singleton, List.Pairwise.nil, and_true]
  refine ⟨fun y hy => ?_, fun y hy => (by cases hy)⟩
  subst hy
  decide +kernel

theorem createFing_right_iff_two :
    FingersRight nodeFive.id [nodeFive, nodeTop] ↔
      [nodeTop] = [] ∨ ∀ i < 256, hexValue nodeFive.id < fingerTarget nodeFive.id i :=
  createFing_right_iff isId_nodes nodes_ascend ⟨nodeFive, List.mem_cons_self, rfl⟩

/-- The first finger of the greatest node starts at 0, and its entry is the node itself. -/
theorem fingers_wrong :
    ¬ ∀ (lst : List NodeID) (id : Str), (∀ x ∈ lst, IsId x.id) →
      lst.Pairwise (fun x y => x.id < y.id) → (∃ x ∈ lst, x.id = id) → FingersRight id lst := by
  intro h
  obtain ⟨fing', hfing', -, hright⟩ := h [nodeFive, nodeTop] nodeTop.id isId_nodes nodes_ascend
    ⟨nodeTop, List.mem_cons_of_mem _ List.mem_cons_self, rfl⟩
  obtain ⟨fing, hfing, -, hentries⟩ := createFing_entries isId_nodes nodes_ascend isId_top
  obtain rfl : fing = fing' := Option.some.inj (hfing.symm.trans hfing')
  obtain ⟨x, hx, hiff⟩ := hentries 0 (by decide)
  obtain ⟨y, hy, hyright⟩ := hright 0 (by decide)
  obtain rfl : x = y := Option.some.inj (hx.symm.trans hy)
  rcases hiff.mp hyright with hnil | hlt
  · cases hnil
  · exact absurd hlt (by decide +kernel)

end Cs457.Chord
