import Cs457.Chord.Fingers
import Cs457.Chord.Lookup
import Cs457.Lib.Circle
import Mathlib.Data.Finset.Lattice.Fold
import Mathlib.Order.Lattice.Nat

/-!
# Chord — how many calls a lookup takes

A hop to a finger halves the way to the last node before the key: the node looks for the last of
its fingers that precedes the key, and a finger is at least as far away as its distance says. Only
the first node of the list gets in the way, which no search looks at: it can be skipped, so that a
request is handed to it late, and its own fingers can have skipped it.

* **`way_halves`** — a hop from a node other than the first.
* **`remaining_next_lt`** — what each hop makes smaller.
* **`lookup_hops`** — no lookup takes more than 260 calls.
-/

namespace Cs457.Chord

open Clockwise Routing Circle

namespace HashRing

variable {digest : Digest} {r : HashRing digest} {key : Str}

/-! ## Ids as points of a circle -/

/-- The way from a node up to a key. -/
def way (key : Str) (x : NodeID) : ℕ := gap (2 ^ 256) (hexValue x.id) (hexValue key)

/-- An id is a number of 256 bits. -/
theorem value_lt {s : Str} (h : IsId s) : hexValue s < 2 ^ 256 :=
  h.value_lt.trans_le (by norm_num)

/-- Nodes with one value are one node. -/
theorem eq_of_value_eq {x y : NodeID} (hx : x ∈ r.lst) (hy : y ∈ r.lst)
    (h : hexValue x.id = hexValue y.id) : x = y := by
  refine r.ascending.inj hx hy (le_antisymm ?_ ?_)
  · exact ((isId_id hx).le_iff (isId_id hy)).mpr h.le
  · exact ((isId_id hy).le_iff (isId_id hx)).mpr h.ge

/-- Only the node at the key has no way to go. -/
theorem way_eq_zero {x : NodeID} (hx : x ∈ r.lst) (hkey : IsId key) (h : way key x = 0) :
    x.id = key := by
  have hlt := value_lt (isId_id hx)
  have hkeylt := value_lt hkey
  have heq : hexValue x.id = hexValue key := by
    unfold way gap at h
    split_ifs at h <;> omega
  exact le_antisymm (((isId_id hx).le_iff hkey).mpr heq.le) ((hkey.le_iff (isId_id hx)).mpr heq.ge)

/-- A node between another one and the key is closer to it. -/
theorem way_lt_of_between {x g : NodeID} (hx : x ∈ r.lst) (hg : g ∈ r.lst) (hkey : IsId key)
    (hgx : g ≠ x) (h : idBetween x.id g.id key = true) (hxk : x.id ≠ key) :
    way key g < way key x := by
  have hxlt := value_lt (isId_id hx)
  have hglt := value_lt (isId_id hg)
  have hne : hexValue g.id ≠ hexValue x.id := fun heq => hgx (eq_of_value_eq hg hx heq)
  unfold way gap
  rcases lt_or_gt_of_ne hxk with hlt | hgt
  · rw [idBetween_of_lt hlt, (isId_id hx).lt_iff (isId_id hg), (isId_id hg).lt_iff hkey] at h
    split_ifs <;> omega
  · rw [idBetween_of_le hgt.le, (isId_id hg).le_iff hkey, (isId_id hx).le_iff (isId_id hg)] at h
    rw [hkey.lt_iff (isId_id hx)] at hgt
    split_ifs <;> omega

/-- A node nearer to the key lies between the other one and the key. -/
theorem between_of_way_lt {x g : NodeID} (hx : x ∈ r.lst) (hg : g ∈ r.lst) (hkey : IsId key)
    (hpos : 0 < way key g) (h : way key g < way key x) : idBetween x.id g.id key = true := by
  have hglt := value_lt (isId_id hg)
  unfold way gap at h hpos
  rcases lt_or_ge x.id key with hlt | hge
  · rw [idBetween_of_lt hlt, (isId_id hx).lt_iff (isId_id hg), (isId_id hg).lt_iff hkey]
    rw [(isId_id hx).lt_iff hkey] at hlt
    split_ifs at h hpos <;> omega
  · rw [idBetween_of_le hge, (isId_id hg).le_iff hkey, (isId_id hx).le_iff (isId_id hg)]
    rw [hkey.le_iff (isId_id hx)] at hge
    split_ifs at h hpos <;> omega

/-! ## The fingers of a node -/

/-- The points that the search for a finger looks at. -/
def searched (r : HashRing digest) (v : ℕ) : Prop := ∃ y ∈ r.lst.tail, hexValue y.id = v

theorem searched_lt {v : ℕ} (h : searched r v) : v < 2 ^ 256 := by
  obtain ⟨y, hy, rfl⟩ := h
  exact value_lt (isId_id (List.mem_of_mem_tail hy))

/-- The head of the list has the smallest id. -/
theorem head_value_lt {a y : NodeID} (ha : r.lst.head? = some a) (hy : y ∈ r.lst.tail) :
    hexValue a.id < hexValue y.id :=
  ((isId_id (List.mem_of_mem_head? ha)).lt_iff (isId_id (List.mem_of_mem_tail hy))).mp
    (head_lt_tail ha hy)

/-- **Each finger** is the entry of its distance. -/
theorem finger_isEntry {a x f : NodeID} (ha : r.lst.head? = some a) (hx : x ∈ r.lst) {i : ℕ}
    (hf : (r.node x).fingertable[i]? = some f) : i < 256 ∧
      IsEntry (searched r) (hexValue a.id) ((hexValue x.id + 2 ^ i) % 2 ^ 256) (hexValue f.id) := by
  have hall := List.forall₂_iff_get.mp (fingertable_spec hx)
  obtain ⟨hi, rfl⟩ := List.getElem?_eq_some_iff.mp hf
  have hi' : i < addends.length := hall.1 ▸ hi
  obtain ⟨k, hk, hval, hfinger⟩ := hall.2 i hi' hi
  rw [List.get_eq_getElem, hexValue_addend hi'] at hval
  refine ⟨length_addends ▸ hi', hval ▸ ?_⟩
  rcases hfinger with ⟨hft, hkf, hmin⟩ | ⟨hbelow, hhead⟩
  · refine Or.inl ⟨⟨_, hft, rfl⟩, (hk.le_iff (isId_id (List.mem_of_mem_tail hft))).mp hkf, ?_⟩
    rintro _ ⟨y, hy, rfl⟩ hky
    have hyid := isId_id (List.mem_of_mem_tail hy)
    have hfy := hmin y hy ((hk.le_iff hyid).mpr hky)
    exact ((isId_id (List.mem_of_mem_tail hft)).le_iff hyid).mp hfy
  · refine Or.inr ⟨?_, ?_⟩
    · rintro _ ⟨y, hy, rfl⟩
      exact ((isId_id (List.mem_of_mem_tail hy)).lt_iff hk).mp (hbelow y hy)
    · exact congrArg (fun y => hexValue y.id) (Option.some.inj (hhead.symm.trans ha))

/-- A finger table has 256 entries. -/
theorem length_fingertable {x : NodeID} (hx : x ∈ r.lst) : (r.node x).fingertable.length = 256 := by
  rw [← (List.forall₂_iff_get.mp (fingertable_spec hx)).1, length_addends]

/-- The search from the back of a list finds nothing before a hit. -/
theorem find?_reverse_index {α : Type} {p : α → Bool} {l : List α} {i : ℕ} {f : α}
    (hf : l[i]? = some f) (hp : p f = true) :
    ∃ j g, i ≤ j ∧ l[j]? = some g ∧ p g = true ∧ l.reverse.find? p = some g := by
  have hmem : f ∈ l.reverse := List.mem_reverse.mpr (List.mem_of_getElem? hf)
  have hsome : (l.reverse.find? p).isSome := List.find?_isSome.mpr ⟨f, hmem, hp⟩
  obtain ⟨g, hg⟩ := Option.isSome_iff_exists.mp hsome
  obtain ⟨hpg, as, bs, hl, has⟩ := List.find?_eq_some_iff_append.mp hg
  have hsplit : l = bs.reverse ++ g :: as.reverse := by
    rw [← List.reverse_reverse l, hl]
    simp
  refine ⟨bs.length, g, ?_, by simp [hsplit], hpg, hg⟩
  -- behind the hit there is none
  by_contra hlt
  rw [hsplit, List.getElem?_append_right (by simp; omega), List.length_reverse] at hf
  obtain ⟨k, hk⟩ := Nat.exists_eq_add_of_lt (not_le.mp hlt)
  rw [show i - bs.length = k + 1 by omega, List.getElem?_cons_succ] at hf
  have hnot := has f (List.mem_reverse.mp (List.mem_of_getElem? hf))
  simp [hp] at hnot

/-- **A hop** to the last finger before the key. -/
theorem next_index {x f : NodeID} (hx : x ∈ r.lst) {i : ℕ}
    (hf : (r.node x).fingertable[i]? = some f) (hbetween : idBetween x.id f.id key = true) :
    ∃ j, i ≤ j ∧ (r.node x).fingertable[j]? = some (r.next key x) := by
  obtain ⟨j, g, hij, hg, _, hfind⟩ := find?_reverse_index
    (p := fun y => idBetween x.id y.id key) hf hbetween
  have hid : (r.node x).id = x.id := congrArg NodeID.id (node_self hx)
  have hnext := closestPrecedingNode_eq hx key
  rw [LocalNode.closestPrecedingNode, hid, hfind, Option.some_or] at hnext
  exact ⟨j, hij, Option.some.inj hnext ▸ hg⟩

/-! ## What a hop leaves -/

/-- The way from a node to the last of the searched nodes that it has before the key. -/
def lag (r : HashRing digest) (key : Str) (x : NodeID) : ℕ :=
  r.lst.tail.toFinset.sup fun y => way key x - way key y

/-- The lag is the greatest way that a node of the tail is ahead. -/
theorem way_sub_le_lag {x y : NodeID} (hy : y ∈ r.lst.tail) :
    way key x - way key y ≤ lag r key x :=
  Finset.le_sup (f := fun y => way key x - way key y) (List.mem_toFinset.mpr hy)

/-- A node nearer to the key lags less. -/
theorem lag_mono {x g : NodeID} (h : way key g ≤ way key x) : lag r key g ≤ lag r key x := by
  refine Finset.sup_le fun y hy => ?_
  have hle : way key x - way key y ≤ lag r key x := way_sub_le_lag (List.mem_toFinset.mp hy)
  omega

/-- A node that lags has one that is as far ahead. -/
theorem exists_lag {x : NodeID} (hpos : 0 < lag r key x) :
    ∃ T ∈ r.lst.tail, lag r key x = way key x - way key T := by
  have hne : r.lst.tail.toFinset.Nonempty := by
    rw [Finset.nonempty_iff_ne_empty]
    intro hempty
    rw [lag, hempty, Finset.sup_empty] at hpos
    exact absurd hpos (lt_irrefl _)
  obtain ⟨T, hT, heq⟩ := Finset.exists_mem_eq_sup _ hne fun y => way key x - way key y
  exact ⟨T, List.mem_toFinset.mp hT, heq⟩

/-- The lag has 256 bits, as ids have. -/
theorem lag_lt (hkey : IsId key) (x : NodeID) : lag r key x < 2 ^ 256 := by
  refine (Finset.sup_lt_iff (by norm_num)).mpr fun y _ => ?_
  have hlt := gap_lt (a := hexValue x.id) (value_lt hkey)
  unfold way
  omega

/-- A finger of the bit of the lag lies before the key. -/
theorem exists_finger {a x T : NodeID} (ha : r.lst.head? = some a) (hx : x ∈ r.lst)
    (hkey : IsId key) (hT : T ∈ r.lst.tail) (hTk : T.id ≠ key) {i : ℕ}
    (hi : 2 ^ i ≤ way key x - way key T) :
    ∃ f, (r.node x).fingertable[i]? = some f ∧ idBetween x.id f.id key = true := by
  have hTl := List.mem_of_mem_tail hT
  have hkeylt := value_lt hkey
  have hxlt := value_lt (isId_id hx)
  have hway := gap_lt (a := hexValue x.id) hkeylt
  have hpos : 0 < 2 ^ i := Nat.two_pow_pos i
  have hlt : i < 256 := by
    refine (Nat.pow_lt_pow_iff_right (by decide : 1 < 2)).mp ?_
    unfold way at hi
    omega
  -- The table has 256 entries and `2 ^ i` is at most a distance, so the entry `i` is there.
  obtain ⟨f, hf⟩ : ∃ f, (r.node x).fingertable[i]? = some f :=
    ⟨_, List.getElem?_eq_getElem (by rw [length_fingertable hx]; exact hlt)⟩
  obtain ⟨_, hentry⟩ := finger_isEntry ha hx hf
  have hTx : way key T ≤ way key x := by omega
  have hsum := gap_add hxlt (value_lt (isId_id hTl)) hTx
  -- The finger is the first node from `x + 2 ^ i` on, so it lies no further than `T`.
  obtain ⟨hflt, hfx, hnear⟩ := hentry.near (fun _ => searched_lt) ⟨T, hT, rfl⟩
    (head_value_lt ha hT) hxlt hpos (Nat.pow_lt_pow_right (by decide) hlt)
    (by unfold way at hi; omega)
  obtain ⟨hTf, hfx'⟩ := gap_le_of_gap_le hxlt hflt (value_lt (isId_id hTl)) hkeylt hTx hnear
  have hfmem : f ∈ r.lst := by
    obtain ⟨k, _, hk⟩ := finger_of_mem hx (List.mem_of_getElem? hf)
    exact hk.mem
  -- `T` has not reached the key, so the finger has not passed it.
  have hTpos : 0 < way key T := Nat.pos_of_ne_zero fun h => hTk (way_eq_zero hTl hkey h)
  refine ⟨f, hf, between_of_way_lt hx hfmem hkey (hTpos.trans_le hTf) ?_⟩
  exact lt_of_le_of_ne hfx' fun heq => hfx (eq_of_gap_eq hflt hxlt heq)

/-- **A hop from a node other than the first** to one that is not the first jumps over the
leading bit of the lag. -/
theorem way_halves {a x : NodeID} (ha : r.lst.head? = some a) (hx : x ∈ r.lst.tail)
    (hkey : IsId key) (hclear : ∀ y ∈ r.lst.tail, y.id ≠ key) (hg : r.next key x ∈ r.lst.tail)
    (hlt : way key (r.next key x) < way key x) :
    (lag r key (r.next key x)).size < (lag r key x).size := by
  have hxl := List.mem_of_mem_tail hx
  have hgl := List.mem_of_mem_tail hg
  have hxlt := value_lt (isId_id hxl)
  have hpos : 0 < lag r key x := by
    have hle : way key x - way key (r.next key x) ≤ lag r key x := way_sub_le_lag hg
    omega
  -- The leading bit of the lag: a finger of that length reaches no further than the key allows.
  obtain ⟨i, hi, hbit⟩ := exists_bit hpos
  obtain ⟨T, hT, hlag⟩ := exists_lag hpos
  obtain ⟨f, hf, hbetween⟩ := exists_finger ha hxl hkey hT (hclear T hT) (hlag ▸ hi)
  -- `closestPrecedingNode` searches from the top, so it takes that finger or a longer one.
  obtain ⟨j, hij, hj⟩ := next_index hxl hf hbetween
  obtain ⟨hj256, hentry⟩ := finger_isEntry ha hxl hj
  have hfar := hentry.far ⟨x, hx, rfl⟩ hxlt (head_value_lt ha hx)
    (Nat.pow_lt_pow_right (by decide) hj256)
    fun heq => absurd (eq_of_value_eq hgl hxl heq ▸ hlt) (lt_irrefl _)
  have hsum := gap_add hxlt (value_lt (isId_id hgl)) hlt.le
  have hpow : 2 ^ i ≤ 2 ^ j := Nat.pow_le_pow_right (by decide) hij
  have hjump : way key (r.next key x) + 2 ^ i ≤ way key x := by
    unfold way
    omega
  refine size_lt_of_jump hi hbit ?_
  -- Every node still ahead is nearer by the jump, so the leading bit is gone.
  have hdrop : lag r key (r.next key x) ≤ lag r key x - 2 ^ i := by
    refine Finset.sup_le fun y hy => ?_
    have hle : way key x - way key y ≤ lag r key x := way_sub_le_lag (List.mem_toFinset.mp hy)
    omega
  omega

/-- What the first node `a` of the list costs a request that is at `x`. -/
def detour (a : NodeID) (key : Str) (x : NodeID) : ℕ :=
  if x = a then 1 else if way key a < way key x then 2 else 0

/-- A bound on the hops that a request has left. -/
def remaining (r : HashRing digest) (a : NodeID) (key : Str) (x : NodeID) : ℕ :=
  (lag r key x).size + detour a key x

/-- At most 258 hops remain. -/
theorem remaining_le (hkey : IsId key) (a x : NodeID) : remaining r a key x ≤ 258 := by
  have hsize : (lag r key x).size ≤ 256 := Nat.size_le.mpr (lag_lt hkey x)
  unfold remaining detour
  split_ifs <;> omega

/-- **A hop to a node between the request and the key** has fewer hops left. -/
theorem remaining_next_lt {a x : NodeID} (ha : r.lst.head? = some a) (hx : x ∈ r.lst)
    (hkey : IsId key) (hclear : ∀ y ∈ r.lst.tail, y.id ≠ key) (hxk : x.id ≠ key)
    (hbetween : idBetween x.id (r.next key x).id key = true) (hmove : r.next key x ≠ x) :
    remaining r a key (r.next key x) < remaining r a key x := by
  have hg := next_mem hx key
  have hlt := way_lt_of_between hx hg hkey hmove hbetween hxk
  have hsize : (lag r key (r.next key x)).size ≤ (lag r key x).size :=
    Nat.size_le_size (lag_mono hlt.le)
  unfold remaining detour
  by_cases hxa : x = a
  · -- the first node is behind the request from now on
    subst hxa
    rw [if_neg hmove, if_neg (by omega), if_pos rfl]
    omega
  · have hxt := (mem_iff_head_or_tail.mp hx).resolve_left fun h =>
      hxa (Option.some.inj (h.symm.trans ha))
    rw [if_neg hxa]
    by_cases hga : r.next key x = a
    · rw [if_pos hga, if_pos (hga ▸ hlt)]
      omega
    · have hgt := (mem_iff_head_or_tail.mp hg).resolve_left fun h =>
        hga (Option.some.inj (h.symm.trans ha))
      have hhalf := way_halves ha hxt hkey hclear hgt hlt
      rw [if_neg hga]
      split_ifs <;> omega

/-! ## Lookups -/

/-- No node of the tail has the key as its id. -/
theorem Routable.tail_clear (h : Routable r key) : ∀ y ∈ r.lst.tail, y.id ≠ key := by
  intro y hy hyk
  obtain ⟨a, ha⟩ := Option.isSome_iff_exists.mp (List.isSome_head?.mpr r.nonempty)
  exact absurd ((h.clear y (List.mem_of_mem_tail hy) hyk).2 a (List.mem_of_mem_head? ha))
    (not_le.mpr (head_lt_tail ha hy))

/-- `find_successor`: each node that hands the request on has fewer hops left, or the next node
answers. -/
theorem findSuccessor_within {key : Str} (hkey : IsId key) (h : Routable r key) {o : NodeID}
    (ho : IsAtOrAfter NodeID.id r.lst key o) {x : NodeID} (hx : x ∈ r.lst) :
    findSuccessor r.network 260 (r.node x) key = some (.ok o) := by
  obtain ⟨a, ha⟩ := Option.isSome_iff_exists.mp (List.isSome_head?.mpr r.nonempty)
  have hhop : ∀ y, y ∈ r.lst → r.succ key y = false → r.next key y ∈ r.lst ∧
      (r.succ key (r.next key y) = true ∨
        remaining r a key (r.next key y) < remaining r a key y) := by
    intro y hy hno
    have hg := next_mem hy key
    have hyk : y.id ≠ key := fun hyk => by
      rw [(succ_iff hy h.clear).mpr (owns_own_id hy h.clear hyk)] at hno
      cases hno
    have hmove : r.next key y ≠ y := fun heq =>
      h.succ_moves y hy (hno ▸ isSuccessor_eq hy key) (by rw [closestPrecedingNode_eq hy, heq])
    refine ⟨hg, ?_⟩
    rcases next_cases hy key with ⟨_, hbetween⟩ | ⟨hhead, hnone⟩
    · exact Or.inr (remaining_next_lt ha hy hkey h.tail_clear hyk hbetween hmove)
    · exact Or.inl ((succ_iff hg h.clear).mpr (last_hop hy h hyk hhead hnone).2)
  obtain ⟨y, hroute, hy⟩ := route_within (P := fun y => y ∈ r.lst) (remaining r a key) hhop hx
    (remaining_le hkey a x)
  have hyo := ((succ_iff hy h.clear).mp (route_answers hroute)).unique r.ascending ho
  rw [findSuccessor, find_eq_route (fun y hy => isSuccessor_eq hy key) _ _ hx, hroute, hyo]
  rfl

/-- `find_predecessor`, of a key that is no node's id. -/
theorem findPredecessor_within {key : Str} (hkey : IsId key) (h : Routable r key) {o p : NodeID}
    (ho : IsAtOrAfter NodeID.id r.lst key o) (hp : IsBefore NodeID.id r.lst o.id p)
    (hnone : ∀ y ∈ r.lst, y.id ≠ key) {x : NodeID} (hx : x ∈ r.lst) :
    findPredecessor r.network 260 (r.node x) key = some (.ok p) := by
  obtain ⟨a, ha⟩ := Option.isSome_iff_exists.mp (List.isSome_head?.mpr r.nonempty)
  have hhop : ∀ y, y ∈ r.lst → r.pred key y = false → r.next key y ∈ r.lst ∧
      (r.pred key (r.next key y) = true ∨
        remaining r a key (r.next key y) < remaining r a key y) := by
    intro y hy hno
    obtain ⟨hbetween, hmove⟩ := pred_hop hy h hno (hnone y hy)
    exact ⟨next_mem hy key,
      Or.inr (remaining_next_lt ha hy hkey h.tail_clear (hnone y hy) hbetween hmove)⟩
  obtain ⟨y, hroute, hy⟩ := route_within (P := fun y => y ∈ r.lst) (remaining r a key) hhop hx
    (remaining_le hkey a x)
  have hyp := ((pred_iff hy h ho).mp (route_answers hroute)).unique r.ascending hp
  rw [findPredecessor, find_eq_route (fun y hy => isPredecessor_eq hy key) _ _ hx, hroute, hyp]
  rfl

/-- **How many calls a lookup takes.** -/
theorem lookup_hops (r : HashRing digest) {key : Str} (hkey : IsId key) (h : Routable r key) :
    ∀ x ∈ r.lst, ∃ o p, r.owner key = some o ∧ r.previous o = some p ∧
      findSuccessor r.network 260 (r.node x) key = some (.ok o) ∧
      ((∀ y ∈ r.lst, y.id ≠ key) →
        findPredecessor r.network 260 (r.node x) key = some (.ok p)) := by
  intro x hx
  obtain ⟨o, howner⟩ := exists_atOrAfter (f := NodeID.id) r.nonempty key
  have ho := (atOrAfter_eq_some_iff r.ascending).mp howner
  obtain ⟨p, hp, hbefore⟩ := exists_previous ho.mem
  exact ⟨o, p, howner, hp, findSuccessor_within hkey h ho hx,
    fun hnone => findPredecessor_within hkey h ho hbefore hnone hx⟩

end HashRing

/-- A key above the ids of all three servers, asked of the first one. -/
theorem lookup_hops_three : ∃ o p,
    localThree.owner top = some o ∧ localThree.previous o = some p ∧
      findSuccessor localThree.network 260 (localThree.node (localNode 9091)) top = some (.ok o) ∧
      ((∀ y ∈ localThree.lst, y.id ≠ top) →
        findPredecessor localThree.network 260 (localThree.node (localNode 9091)) top
          = some (.ok p)) :=
  HashRing.lookup_hops localThree isId_top
    (HashRing.routable_of_above isId_top (by simp [localThree]) (by decide +kernel))
    (localNode 9091) (by simp [localThree])

end Cs457.Chord
