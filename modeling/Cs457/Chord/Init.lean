import Cs457.Chord.Id
import Mathlib.Data.List.Zip

/-!
# Chord — the initialiser

The functions of `init` that compute finger tables: `hs_add` adds hex strings digit by digit,
`bs` searches the sorted list of nodes, `create_fing` puts the 256 fingers of a node together.
A Python exception is `none`.

* **`hsAdd_exact`** — the addition is exact, for strings of any lengths.
* **`bs_spec`** — the search finds the first node at or after a key *among those behind the
  first*: it never returns the index 0.
* **`createFing_spec`** — the finger table of a node, entry by entry.
-/

namespace Cs457.Chord

/-! ## `hs_add` -/

/-- `res.append(hs[r%16]); c=r/16`. -/
def carry (acc : List UInt8 × ℕ) (r : ℕ) : List UInt8 × ℕ :=
  (acc.1 ++ [hexDigit (r % 16)], r / 16)

/-- The two loops, for `len(h1) <= len(h2)`. -/
def addColumns (h1 h2 : Str) : Option Str := do
  let df := h2.length - h1.length
  let acc ← (h1.reverse.zip (h2.drop df).reverse).foldlM (fun acc x => do
    return carry acc ((← hsd x.1) + (← hsd x.2) + acc.2)) ([], 0)
  let (res, c) ← (h2.take df).reverse.foldlM (fun acc x => do
    return carry acc ((← hsd x) + acc.2)) acc
  let res := if c > 0 then res ++ [hexDigit c] else res
  return res.reverse

def hsAdd (h1 h2 : Str) : Option Str :=
  if h1.length > h2.length then addColumns h2 h1 else addColumns h1 h2

/-! ## `bs` and `create_fing` -/

/-- With `e ≤ b` the recursion of the source has no end. -/
def bs (k : Str) (lst : List NodeID) (b e : ℕ) : Option ℕ :=
  if b + 1 = e then some e
  else if _ : b + 1 < e then
    let m := (b + e) / 2
    match lst[m]? with
    | none => none
    | some x => if k ≤ x.id then bs k lst b m else bs k lst m e
  else none
termination_by e - b

/-- `s[-64:]`. -/
def last64 (s : Str) : Str := s.drop (s.length - 64)

/-- The entry for one value of `add`. -/
def finger (id : Str) (lst : List NodeID) (add : Str) : Option NodeID := do
  let sum ← hsAdd id add
  let idx ← bs (last64 sum) lst 0 lst.length
  if idx ≥ lst.length then lst[0]? else lst[idx]?

/-- `dd`. -/
def dd : List UInt8 := [0x31, 0x32, 0x34, 0x38]

/-- The values of `add` in the order of the two loops. -/
def addends : List Str :=
  (List.range 64).flatMap fun i => dd.map fun d => (List.replicate 64 0x30).set (63 - i) d

def createFing (id : Str) (lst : List NodeID) : Option (List NodeID) :=
  addends.mapM (finger id lst)

/-! ## The addition is exact -/

/-- One column of `hs_add` is one of an addition in base 16. -/
theorem map_carry (acc : List UInt8 × ℕ) (r : ℕ) :
    ((carry acc (r + acc.2)).1.map digitOf, (carry acc (r + acc.2)).2)
      = Numeral.column 16 (acc.1.map digitOf, acc.2) r := by
  have hlt : (r + acc.2) % 16 < 16 := Nat.mod_lt _ (by decide)
  simp only [carry, Numeral.column, List.map_append, List.map_cons, List.map_nil,
    digitOf_hexDigit hlt]

/-- **A loop of `hs_add`.** `f` is the sum of a column without its carry. On hex digits the
loop does not fail, and its digits are those of the ripple addition. -/
theorem foldlM_carry {α : Type} {body : List UInt8 × ℕ → α → Option (List UInt8 × ℕ)} {f : α → ℕ}
    {xs : List α} (hbody : ∀ acc, ∀ x ∈ xs, body acc x = some (carry acc (f x + acc.2)))
    {acc : List UInt8 × ℕ} (hacc : IsHex acc.1) :
    ∃ res, xs.foldlM body acc = some res ∧ IsHex res.1 ∧
      (res.1.map digitOf, res.2)
        = (xs.map f).foldl (Numeral.column 16) (acc.1.map digitOf, acc.2) := by
  induction xs generalizing acc with
  | nil => exact ⟨acc, rfl, hacc, rfl⟩
  | cons x xs ih =>
    have hnext : IsHex (carry acc (f x + acc.2)).1 := by
      intro ch hch
      rcases List.mem_append.mp hch with hch | hch
      · exact hacc ch hch
      · rw [List.mem_singleton.mp hch]
        exact hexDigit_mem (Nat.mod_lt _ (by decide))
    obtain ⟨res, hres, hhex, hmap⟩ :=
      ih (fun a y hy => hbody a y (List.mem_cons_of_mem x hy)) hnext
    refine ⟨res, ?_, hhex, ?_⟩
    · rw [List.foldlM_cons, hbody acc x List.mem_cons_self]
      exact hres
    · rw [hmap, List.map_cons, List.foldl_cons, map_carry]

/-- The value of a string, from its last digit. -/
theorem hexValue_eq (s : Str) : hexValue s = Nat.ofDigits 16 (s.reverse.map digitOf) := by
  rw [hexValue, Numeral.value, List.map_reverse]

/-- The sums of the columns without their carries, the last digits first. -/
def columns (h1 h2 : Str) : List ℕ :=
  (h1.reverse.zip (h2.drop (h2.length - h1.length)).reverse).map
      (fun x => digitOf x.1 + digitOf x.2)
    ++ (h2.take (h2.length - h1.length)).reverse.map digitOf

/-- There are as many columns as the longer operand has digits. -/
theorem length_columns {h1 h2 : Str} (hle : h1.length ≤ h2.length) :
    (columns h1 h2).length = h2.length := by
  simp only [columns, List.length_append, List.length_map, List.length_zip, List.length_reverse,
    List.length_drop, List.length_take]
  omega

/-- The columns have the value of the sum. -/
theorem columns_value {h1 h2 : Str} (hle : h1.length ≤ h2.length) :
    Nat.ofDigits 16 (columns h1 h2) = hexValue h1 + hexValue h2 := by
  have hlow : (h2.drop (h2.length - h1.length)).length = h1.length := by
    rw [List.length_drop]
    omega
  have hzip : (h1.reverse.zip (h2.drop (h2.length - h1.length)).reverse).map
        (fun x => digitOf x.1 + digitOf x.2)
      = List.zipWith (· + ·) (h1.reverse.map digitOf)
        ((h2.drop (h2.length - h1.length)).reverse.map digitOf) := by
    rw [List.zip, List.map_zipWith, List.zipWith_map]
  have hsplit : h2.reverse.map digitOf
      = (h2.drop (h2.length - h1.length)).reverse.map digitOf
        ++ (h2.take (h2.length - h1.length)).reverse.map digitOf := by
    rw [← List.map_append, ← List.reverse_append, List.take_append_drop]
  rw [columns, hzip, Nat.ofDigits_append,
    ← Nat.ofDigits_add_ofDigits_eq_ofDigits_zipWith_of_length_eq
      (by rw [List.length_map, List.length_reverse, List.length_map, List.length_reverse, hlow]),
    hexValue_eq, hexValue_eq, hsplit, Nat.ofDigits_append]
  simp only [List.length_zipWith, List.length_map, List.length_reverse, hlow, Nat.min_self]
  omega

/-- A column has at most two digits. -/
theorem columns_le {h1 h2 : Str} (hx1 : IsHex h1) (hx2 : IsHex h2) :
    ∀ r ∈ columns h1 h2, r ≤ 2 * (16 - 1) := by
  intro r hr
  rcases List.mem_append.mp hr with hr | hr
  · obtain ⟨x, hx, rfl⟩ := List.mem_map.mp hr
    obtain ⟨hl, hr⟩ := List.of_mem_zip hx
    have hdl := digitOf_lt (hx1 _ (List.mem_reverse.mp hl))
    have hdr := digitOf_lt (hx2 _ (List.mem_of_mem_drop (List.mem_reverse.mp hr)))
    omega
  · obtain ⟨x, hx, rfl⟩ := List.mem_map.mp hr
    have hd := digitOf_lt (hx2 _ (List.mem_of_mem_take (List.mem_reverse.mp hx)))
    omega

/-- The two loops together are the ripple addition over all the columns. -/
theorem addColumns_ripple {h1 h2 : Str} (hx1 : IsHex h1) (hx2 : IsHex h2) :
    ∃ res c, addColumns h1 h2 = some (if c > 0 then res ++ [hexDigit c] else res).reverse ∧
      IsHex res ∧ (res.map digitOf, c) = (columns h1 h2).foldl (Numeral.column 16) ([], 0) := by
  -- The first loop adds the digits of both strings, the second the rest of the longer one.
  have hbody₁ : ∀ (acc : List UInt8 × ℕ), ∀ x ∈ h1.reverse.zip
      (h2.drop (h2.length - h1.length)).reverse,
      (do return carry acc ((← hsd x.1) + (← hsd x.2) + acc.2) : Option (List UInt8 × ℕ))
        = some (carry acc (digitOf x.1 + digitOf x.2 + acc.2)) := by
    intro acc x hx
    obtain ⟨hl, hr⟩ := List.of_mem_zip hx
    rw [hsd_eq_some (hx1 _ (List.mem_reverse.mp hl)),
      hsd_eq_some (hx2 _ (List.mem_of_mem_drop (List.mem_reverse.mp hr)))]
    rfl
  have hbody₂ : ∀ (acc : List UInt8 × ℕ), ∀ x ∈ (h2.take (h2.length - h1.length)).reverse,
      (do return carry acc ((← hsd x) + acc.2) : Option (List UInt8 × ℕ))
        = some (carry acc (digitOf x + acc.2)) := by
    intro acc x hx
    rw [hsd_eq_some (hx2 _ (List.mem_of_mem_take (List.mem_reverse.mp hx)))]
    rfl
  have hnil : IsHex (([], 0) : List UInt8 × ℕ).1 := fun ch hch => (by cases hch)
  -- Both loops are one ripple-carry addition over all the columns.
  obtain ⟨acc, hacc, hhex, hmap⟩ := foldlM_carry hbody₁ hnil
  obtain ⟨⟨res, c⟩, hres, hhex', hmap'⟩ := foldlM_carry hbody₂ hhex
  rw [hmap, List.map_nil, ← List.foldl_append] at hmap'
  refine ⟨res, c, ?_, hhex', hmap'⟩
  unfold addColumns
  simp only
  rw [hacc]
  show Option.bind (List.foldlM (m := Option) _ acc _) _ = _
  rw [hres]
  rfl

/-- The last carry, when there is one, is the first digit of the sum. -/
theorem finish_spec {res : List UInt8} {c : ℕ} (hres : IsHex res) (hc : c ≤ 1) :
    IsHex (if c > 0 then res ++ [hexDigit c] else res).reverse ∧
      hexValue (if c > 0 then res ++ [hexDigit c] else res).reverse
        = Nat.ofDigits 16 (res.map digitOf) + c * 16 ^ res.length ∧
      (if c > 0 then res ++ [hexDigit c] else res).reverse.length = res.length + c := by
  by_cases hpos : c > 0
  · have hone : c = 1 := by omega
    rw [if_pos hpos]
    refine ⟨fun ch hch => ?_, ?_, ?_⟩
    · rcases List.mem_append.mp (List.mem_reverse.mp hch) with hch | hch
      · exact hres ch hch
      · rw [List.mem_singleton.mp hch]
        exact hexDigit_mem (by omega)
    · rw [hexValue_eq, List.reverse_reverse, List.map_append, List.map_singleton,
        digitOf_hexDigit (by omega), Nat.ofDigits_append, Nat.ofDigits_singleton,
        List.length_map, Nat.mul_comm]
    · rw [List.length_reverse, List.length_append, List.length_singleton, hone]
  · have hzero : c = 0 := by omega
    rw [if_neg hpos, hzero, Nat.zero_mul, Nat.add_zero, Nat.add_zero]
    refine ⟨fun ch hch => hres ch (List.mem_reverse.mp hch), ?_, ?_⟩
    · rw [hexValue_eq, List.reverse_reverse]
    · rw [List.length_reverse]

/-- The columns are added to a string of digits, with one more for a last carry. -/
theorem addColumns_spec {h1 h2 : Str} (hx1 : IsHex h1) (hx2 : IsHex h2)
    (hle : h1.length ≤ h2.length) :
    ∃ s, addColumns h1 h2 = some s ∧ IsHex s ∧ hexValue s = hexValue h1 + hexValue h2 ∧
      (s.length = h2.length ∨ s.length = h2.length + 1) := by
  obtain ⟨res, c, heq, hhex, hmap⟩ := addColumns_ripple hx1 hx2
  have hdigits := congrArg Prod.fst hmap
  have hcarry := congrArg Prod.snd hmap
  simp only at hdigits hcarry
  have hlen : res.length = h2.length := by
    rw [show res.length = (res.map digitOf).length from (List.length_map _).symm, hdigits,
      Numeral.ripple_length, length_columns hle, List.length_nil, Nat.zero_add]
  have hc : c ≤ 1 := by
    rw [hcarry]
    exact Numeral.ripple_carry (by decide) (columns_le hx1 hx2) (by decide)
  have hsum : Nat.ofDigits 16 (res.map digitOf) + c * 16 ^ res.length
      = hexValue h1 + hexValue h2 := by
    rw [show res.length = (res.map digitOf).length from (List.length_map _).symm, hdigits, hcarry,
      Numeral.ripple_value, columns_value hle]
    simp
  obtain ⟨hx, hval, hlength⟩ := finish_spec hhex hc
  refine ⟨_, heq, hx, hval.trans hsum, ?_⟩
  rw [hlength, hlen]
  omega

/-- A column does not depend on the order of its digits. -/
theorem column_swap (acc : List UInt8 × ℕ) (x : UInt8 × UInt8) :
    (do return carry acc ((← hsd x.swap.1) + (← hsd x.swap.2) + acc.2) :
        Option (List UInt8 × ℕ))
      = (do return carry acc ((← hsd x.1) + (← hsd x.2) + acc.2)) := by
  rw [Prod.fst_swap, Prod.snd_swap]
  cases hsd x.1 with
  | none => cases hsd x.2 <;> rfl
  | some d =>
    cases hsd x.2 with
    | none => rfl
    | some e =>
      show some (carry acc (e + d + acc.2)) = some (carry acc (d + e + acc.2))
      rw [Nat.add_comm e d]

/-- Operands of one length may be swapped. -/
theorem addColumns_comm {h1 h2 : Str} (hlen : h1.length = h2.length) :
    addColumns h1 h2 = addColumns h2 h1 := by
  unfold addColumns
  -- no digit is left for the second loop, and the first goes through the same columns
  simp only [hlen, Nat.sub_self, List.drop_zero, List.take_zero]
  rw [← List.zip_swap h1.reverse h2.reverse, List.foldlM_map]
  simp only [column_swap]

/-- **`hs_add` is commutative.** The shorter operand is aligned with the end of the longer one,
whichever comes first. -/
theorem hsAdd_comm (h1 h2 : Str) : hsAdd h1 h2 = hsAdd h2 h1 := by
  unfold hsAdd
  rcases Nat.lt_trichotomy h1.length h2.length with hlt | heq | hgt
  · rw [if_neg (by omega), if_pos hlt]
  · rw [if_neg (by omega), if_neg (by omega), addColumns_comm heq]
  · rw [if_pos hgt, if_neg (by omega)]

/-- **`hs_add` is exact.** -/
theorem hsAdd_spec {h1 h2 : Str} (hx1 : IsHex h1) (hx2 : IsHex h2) :
    ∃ s, hsAdd h1 h2 = some s ∧ IsHex s ∧ hexValue s = hexValue h1 + hexValue h2 ∧
      (s.length = max h1.length h2.length ∨ s.length = max h1.length h2.length + 1) := by
  unfold hsAdd
  split
  · next hlt =>
    obtain ⟨s, hs, hhex, hval, hlen⟩ := addColumns_spec hx2 hx1 (by omega)
    rw [max_eq_left (by omega)]
    exact ⟨s, hs, hhex, by omega, hlen⟩
  · next hle =>
    rw [max_eq_right (by omega)]
    exact addColumns_spec hx1 hx2 (by omega)

/-- The sum of two ids, cut to 64 digits, is their sum modulo `2 ^ 256`. -/
theorem hsAdd_id {id add : Str} (hid : IsId id) (hadd : IsId add) :
    ∃ s, hsAdd id add = some s ∧ IsId (last64 s) ∧
      hexValue (last64 s) = (hexValue id + hexValue add) % 2 ^ 256 := by
  obtain ⟨s, hs, hhex, hval, hlen⟩ := hsAdd_spec hid.hex hadd.hex
  rw [hid.length, hadd.length, max_self] at hlen
  have hmap : (last64 s).map digitOf = (s.map digitOf).drop ((s.map digitOf).length - 64) := by
    rw [last64, List.map_drop, List.length_map]
  refine ⟨s, hs, ⟨fun ch hch => hhex ch (List.mem_of_mem_drop hch), ?_⟩, ?_⟩
  · rw [last64, List.length_drop]
    omega
  · rw [hexValue, hmap, Numeral.value_drop (by decide) hhex.digits_lt
      (by rw [List.length_map]; omega), ← hval, hexValue]
    norm_num

/-- **Hex addition.** On two hex strings of any lengths, in either order, `hs_add` returns the
hex string of the sum, at most one digit longer than the longer operand; on two ids it is cut
to their sum modulo `2 ^ 256`. -/
theorem hsAdd_exact {h1 h2 : Str} (hx1 : IsHex h1) (hx2 : IsHex h2) :
    ∃ s, hsAdd h1 h2 = some s ∧ hsAdd h2 h1 = some s ∧ IsHex s ∧
      hexValue s = hexValue h1 + hexValue h2 ∧
      (s.length = max h1.length h2.length ∨ s.length = max h1.length h2.length + 1) ∧
      (h1.length = 64 → h2.length = 64 →
        IsId (last64 s) ∧ hexValue (last64 s) = (hexValue h1 + hexValue h2) % 2 ^ 256) := by
  obtain ⟨s, hs, hhex, hval, hlen⟩ := hsAdd_spec hx1 hx2
  refine ⟨s, hs, (hsAdd_comm h2 h1).trans hs, hhex, hval, hlen, fun hlen1 hlen2 => ?_⟩
  obtain ⟨s', hs', hlast⟩ := hsAdd_id ⟨hx1, hlen1⟩ ⟨hx2, hlen2⟩
  obtain rfl : s = s' := Option.some.inj (hs.symm.trans hs')
  exact hlast

/-- `ff + 1`, and `1 + ff`. -/
theorem hsAdd_exact_ff : ∃ s, hsAdd (str "ff") (str "1") = some s ∧
    hsAdd (str "1") (str "ff") = some s ∧ IsHex s ∧
    hexValue s = hexValue (str "ff") + hexValue (str "1") ∧
    (s.length = max (str "ff").length (str "1").length ∨
      s.length = max (str "ff").length (str "1").length + 1) ∧
    ((str "ff").length = 64 → (str "1").length = 64 → IsId (last64 s) ∧
      hexValue (last64 s) = (hexValue (str "ff") + hexValue (str "1")) % 2 ^ 256) :=
  hsAdd_exact (by decide +kernel) (by decide +kernel)

/-! ## The search -/

/-- **What `bs` finds.** Between `b` and `e`, the first index behind `b` whose id is not below
`k`, or `e`. Induction on the length of the interval. -/
theorem bs_spec {k : Str} {lst : List NodeID} (hsorted : lst.Pairwise fun x y => x.id < y.id)
    {b e : ℕ} (hbe : b < e) (he : e ≤ lst.length) :
    ∃ idx, bs k lst b e = some idx ∧ b < idx ∧ idx ≤ e ∧
      (∀ i x, b < i → i < idx → lst[i]? = some x → x.id < k) ∧
      (∀ x, idx < e → lst[idx]? = some x → k ≤ x.id) := by
  induction hn : e - b using Nat.strong_induction_on generalizing b e with
  | _ n ih =>
    unfold bs
    by_cases hone : b + 1 = e
    · rw [if_pos hone]
      exact ⟨e, rfl, hbe, le_rfl, fun i x _ _ => by omega, fun x hlt => by omega⟩
    · have hlt : b + 1 < e := by omega
      have hm : (b + e) / 2 < lst.length := by omega
      rw [if_neg hone, dif_pos hlt]
      simp only [List.getElem?_eq_getElem hm]
      split
      · next hk =>
        obtain ⟨idx, hbs, hb, hle, hbelow, hat⟩ := ih _ (by omega) (b := b) (e := (b + e) / 2)
          (by omega) (by omega) rfl
        refine ⟨idx, hbs, hb, by omega, hbelow, fun x _ hx => ?_⟩
        rcases Nat.lt_or_eq_of_le hle with hlt' | rfl
        · exact hat x hlt' hx
        · rw [List.getElem?_eq_getElem hm] at hx
          exact Option.some.inj hx ▸ hk
      · next hk =>
        obtain ⟨idx, hbs, hb, hle, hbelow, hat⟩ := ih _ (by omega) (b := (b + e) / 2) (e := e)
          (by omega) he rfl
        refine ⟨idx, hbs, by omega, hle, fun i x hi hidx hx => ?_, hat⟩
        by_cases him : (b + e) / 2 < i
        · exact hbelow i x him hidx hx
        · -- the ids up to the middle are not above the middle one
          obtain ⟨hil, rfl⟩ := List.getElem?_eq_some_iff.mp hx
          rcases Nat.lt_or_eq_of_le (Nat.not_lt.mp him) with hlt' | heq
          · exact (List.pairwise_iff_getElem.mp hsorted i _ hil hm hlt').trans (not_le.mp hk)
          · simp only [heq]
            exact not_le.mp hk

/-- The finger for the start `k`: the first node at or after it among those behind the first
of the list, or else the first. -/
def IsFinger (lst : List NodeID) (k : Str) (x : NodeID) : Prop :=
  (x ∈ lst.tail ∧ k ≤ x.id ∧ ∀ y ∈ lst.tail, k ≤ y.id → x.id ≤ y.id) ∨
    ((∀ y ∈ lst.tail, y.id < k) ∧ lst.head? = some x)

/-- A finger is a node of the list. -/
theorem IsFinger.mem {lst : List NodeID} {k : Str} {x : NodeID} (h : IsFinger lst k x) : x ∈ lst :=
  h.elim (fun h => List.mem_of_mem_tail h.1) fun h => List.mem_of_mem_head? h.2

theorem exists_getElem?_of_mem_tail {lst : List NodeID} {y : NodeID} (hy : y ∈ lst.tail) :
    ∃ j, 0 < j ∧ lst[j]? = some y := by
  obtain ⟨j, hj⟩ := List.mem_iff_getElem?.mp hy
  exact ⟨j + 1, Nat.succ_pos j, by rw [← hj, List.getElem?_tail]⟩

/-- One finger: the sum is cut to 256 bits and looked up. -/
theorem finger_spec {id add : Str} {lst : List NodeID} (hid : IsId id) (hadd : IsId add)
    (hsorted : lst.Pairwise fun x y => x.id < y.id) (hne : lst ≠ []) :
    ∃ x k, finger id lst add = some x ∧ IsId k ∧
      hexValue k = (hexValue id + hexValue add) % 2 ^ 256 ∧ IsFinger lst k x := by
  obtain ⟨s, hs, hk, hval⟩ := hsAdd_id hid hadd
  have hlen := List.length_pos_iff.mpr hne
  obtain ⟨idx, hbs, hpos, hle, hbelow, hat⟩ := bs_spec (k := last64 s) hsorted hlen le_rfl
  have heq : finger id lst add = if idx ≥ lst.length then lst[0]? else lst[idx]? := by
    simp only [finger, hs, hbs, bind, Option.bind]
  -- `bs` starts at 1, so it finds an entry behind the first, or it runs over the end and the first
  -- is taken.
  rcases Nat.lt_or_eq_of_le hle with hlt | rfl
  · have hx := List.getElem?_eq_getElem hlt
    refine ⟨lst[idx], last64 s, ?_, hk, hval, Or.inl ⟨?_, hat _ hlt hx, fun y hy hky => ?_⟩⟩
    · rw [heq, if_neg (by omega), hx]
    · refine List.mem_iff_getElem?.mpr ⟨idx - 1, ?_⟩
      rw [List.getElem?_tail, show idx - 1 + 1 = idx by omega, hx]
    · obtain ⟨j, hj, hy⟩ := exists_getElem?_of_mem_tail hy
      have hji : ¬ j < idx := fun hlt' => absurd hky (not_le.mpr (hbelow j y hj hlt' hy))
      obtain ⟨hjl, rfl⟩ := List.getElem?_eq_some_iff.mp hy
      rcases Nat.lt_or_eq_of_le (Nat.not_lt.mp hji) with hij | rfl
      · exact (List.pairwise_iff_getElem.mp hsorted idx j hlt hjl hij).le
      · exact le_rfl
  · refine ⟨lst[0], last64 s, ?_, hk, hval, Or.inr ⟨fun y hy => ?_, ?_⟩⟩
    · rw [heq, if_pos le_rfl, List.getElem?_eq_getElem hlen]
    · obtain ⟨j, hj, hy⟩ := exists_getElem?_of_mem_tail hy
      exact hbelow j y hj (List.getElem?_eq_some_iff.mp hy).1 hy
    · rw [List.head?_eq_getElem?, List.getElem?_eq_getElem hlen]

/-- The addends are written as ids. -/
theorem isId_addends : ∀ add ∈ addends, IsId add := by
  intro add hadd
  have hdd : ∀ d ∈ dd, d ∈ hs := by decide +kernel
  obtain ⟨i, _, hadd⟩ := List.mem_flatMap.mp hadd
  obtain ⟨d, hd, rfl⟩ := List.mem_map.mp hadd
  refine ⟨fun ch hch => ?_, by simp⟩
  rcases List.mem_or_eq_of_mem_set hch with hch | rfl
  · rw [List.eq_of_mem_replicate hch]
    decide +kernel
  · exact hdd _ hd

/-- A list of results, each related to its argument. -/
theorem mapM_forall₂ {α β : Type} {f : α → Option β} {R : α → β → Prop} {l : List α}
    (h : ∀ a ∈ l, ∃ b, f a = some b ∧ R a b) : ∃ bs, l.mapM f = some bs ∧ List.Forall₂ R l bs := by
  induction l with
  | nil => exact ⟨[], rfl, .nil⟩
  | cons a l ih =>
    obtain ⟨b, hb, hab⟩ := h a List.mem_cons_self
    obtain ⟨bs, hbs, hrest⟩ := ih fun x hx => h x (List.mem_cons_of_mem a hx)
    refine ⟨b :: bs, ?_, .cons hab hrest⟩
    rw [List.mapM_cons, hb, hbs]
    rfl

/-- **The finger table of a node.** One finger for each value of `add`. -/
theorem createFing_spec {id : Str} {lst : List NodeID} (hid : IsId id)
    (hsorted : lst.Pairwise fun x y => x.id < y.id) (hne : lst ≠ []) :
    ∃ fing, createFing id lst = some fing ∧ List.Forall₂ (fun add x => ∃ k, IsId k ∧
      hexValue k = (hexValue id + hexValue add) % 2 ^ 256 ∧ IsFinger lst k x) addends fing := by
  refine mapM_forall₂ fun add hadd => ?_
  obtain ⟨x, k, hx, hk⟩ := finger_spec hid (isId_addends add hadd) hsorted hne
  exact ⟨x, hx, k, hk⟩

/-- The first finger of a node starts right behind it. -/
theorem head_addends : ∃ add rest, addends = add :: rest ∧ hexValue add = 1 :=
  ⟨_, _, rfl, by decide +kernel⟩

end Cs457.Chord
