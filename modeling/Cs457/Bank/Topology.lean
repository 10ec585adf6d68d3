import Cs457.Bank.Cluster
import Mathlib.Data.List.Nodup
import Mathlib.Data.List.GetD

/-!
# Bank — who connects to whom

`init_branch_handler` gives the branch at offset `o` of the list the connections to the
following `outgoing` offsets, around the end of the list. This module shows that the windows
of all offsets cover each pair of branches once.

* **`reaches_iff`** — the window of `o` as a bound on the clockwise distance.
* **`reaches_iff_not`** — of two offsets exactly one has the other in its window.
* **`dialled`** — the names a branch connects to when it handles an InitBranch, and the same
  facts for them.
-/

namespace Cs457.Bank

namespace Branch

/-! ## The windows of offsets -/

/-- The offset `a` is in the window of `o`. -/
def Reaches (n o a : ℕ) : Prop := ∃ i < outgoing n o, (o + 1 + i) % n = a

/-- How many places `a` follows `o` on the circle of `n`. -/
def ahead (n o a : ℕ) : ℕ := if o < a then a - o else a + n - o

/-- One reduction suffices for the sums that occur here. -/
theorem mod_of_lt_add {x n : ℕ} (h : x < n + n) : x % n = if x < n then x else x - n := by
  split
  · next hlt => exact Nat.mod_eq_of_lt hlt
  · next hge =>
    rw [Nat.mod_eq_sub_mod (by omega), Nat.mod_eq_of_lt (by omega)]

/-- A branch dials fewer branches than there are. -/
theorem outgoing_lt {n o : ℕ} (ho : o < n) : outgoing n o < n := by
  unfold outgoing
  split
  · split <;> omega
  · omega

/-- A branch dials those that are at most `outgoing` places ahead of it. -/
theorem reaches_iff {n o a : ℕ} (ho : o < n) (ha : a < n) :
    Reaches n o a ↔ ahead n o a ≤ outgoing n o := by
  have hk := outgoing_lt ho
  unfold Reaches ahead
  constructor
  · rintro ⟨i, hi, rfl⟩
    rw [mod_of_lt_add (by omega)]
    split <;> split <;> omega
  · intro hle
    split at hle
    · refine ⟨a - o - 1, by omega, ?_⟩
      rw [show o + 1 + (a - o - 1) = a from by omega, Nat.mod_eq_of_lt ha]
    · refine ⟨a + n - o - 1, by omega, ?_⟩
      rw [show o + 1 + (a + n - o - 1) = a + n from by omega, Nat.add_mod_right,
        Nat.mod_eq_of_lt ha]

/-- No branch dials itself. -/
theorem not_reaches_self {n o : ℕ} (ho : o < n) : ¬ Reaches n o o := by
  have hk := outgoing_lt ho
  rw [reaches_iff ho ho]
  unfold ahead
  split <;> omega

/-- **One connection per pair.** The distances from `o` to `a` and back add up to `n`, and
`outgoing` is half of `n - 1`; for even `n` the pair of opposite offsets is given to the one
in the first half. -/
theorem reaches_iff_not {n o a : ℕ} (ho : o < n) (ha : a < n) (hne : o ≠ a) :
    Reaches n o a ↔ ¬ Reaches n a o := by
  have hsum : ahead n o a + ahead n a o = n := by
    unfold ahead
    split <;> split <;> omega
  rw [reaches_iff ho ha, reaches_iff ha ho]
  by_cases hpar : n % 2 = 0
  · -- only opposite offsets depend on the half an offset lies in
    have hhalf : ahead n o a = n / 2 → (o < n / 2 ↔ ¬ a < n / 2) := by
      unfold ahead
      split <;> omega
    simp only [outgoing, hpar, if_true]
    split <;> split <;> omega
  · simp only [outgoing, hpar, if_false]
    omega

/-! ## The names a branch connects to -/

/-- The peers that `b` opens connections to when it handles `msg`. -/
def dialled (b : Branch) (msg : InitBranch) : List Name :=
  match b.initBranchHandler msg with
  | .ok r => (Cluster.opened r.2).map fun e => e.1.name
  | .error _ => []

end Branch

open Branch

theorem InitBranch.map_name_peers (msg : InitBranch) : msg.peers.map PeerInfo.name = msg.names := by
  rw [InitBranch.peers, InitBranch.names, List.map_map]
  rfl

theorem InitBranch.length_peers (msg : InitBranch) : msg.peers.length = msg.names.length := by
  rw [← msg.map_name_peers, List.length_map]

theorem InitBranch.length_allBranches (msg : InitBranch) :
    msg.allBranches.length = msg.names.length := by
  rw [InitBranch.names, List.length_map]

/-- The search for the own name ends at its offset. -/
theorem InitBranch.findIdx?_peers {msg : InitBranch} (hnd : msg.names.Nodup) {o : ℕ} {p : Name}
    (ho : msg.names[o]? = some p) : msg.peers.findIdx? (fun x => x.name = p) = some o := by
  obtain ⟨hlt, hname⟩ := List.getElem?_eq_some_iff.mp ho
  have hmap : msg.peers.findIdx? (fun x => x.name = p) = msg.names.findIdx? (fun x => x = p) := by
    rw [← msg.map_name_peers, List.findIdx?_map]
    rfl
  rw [hmap, List.findIdx?_eq_some_iff_getElem]
  refine ⟨hlt, by rw [hname, decide_eq_true rfl], fun j hj => ?_⟩
  have hjlt : j < msg.names.length := by omega
  have hne : msg.names[j] ≠ p := by
    intro heq
    have := (List.Nodup.getElem_inj_iff hnd).mp (heq.trans hname.symm)
    omega
  simpa using hne

/-- The handler of a branch that has not been initialised before. -/
theorem Branch.initBranchHandler_fresh {b : Branch} {msg : InitBranch} (hnd : msg.names.Nodup)
    (hfresh : b.knownPeers = []) {o : ℕ} (ho : msg.names[o]? = some b.name) :
    ∃ b', b.initBranchHandler msg = .ok (b', (targets msg.peers msg.names.length o).map fun peer =>
        .connect peer ⟨.peer b.name peer.name, .opener⟩) ∧
      b'.name = b.name ∧ b'.channels = b.channels ∧ b'.strand = b.strand ∧
      b'.money = msg.balance ∧ b'.knownPeers = msg.peers.eraseIdx o := by
  unfold initBranchHandler
  simp only [hfresh, List.nil_append, msg.findIdx?_peers hnd ho, msg.length_allBranches]
  exact ⟨_, rfl, rfl, rfl, rfl, rfl, rfl⟩

/-- A branch that has no peers yet dials the targets of its offset. -/
theorem Branch.dialled_fresh {b : Branch} {msg : InitBranch} (hnd : msg.names.Nodup)
    (hfresh : b.knownPeers = []) {o : ℕ} (ho : msg.names[o]? = some b.name) :
    b.dialled msg = (targets msg.peers msg.names.length o).map PeerInfo.name := by
  obtain ⟨b', hb, _⟩ := initBranchHandler_fresh hnd hfresh ho
  simp only [dialled, hb, Cluster.opened, List.filterMap_map, List.map_filterMap]
  rw [← List.filterMap_eq_map]
  rfl

section Dialled

variable {b : Branch} {msg : InitBranch} {o : ℕ}

/-- The window as a list of names: the index never leaves the list. -/
theorem Branch.dialled_eq_map (hnd : msg.names.Nodup) (hfresh : b.knownPeers = [])
    (ho : msg.names[o]? = some b.name) :
    b.dialled msg = (List.range (outgoing msg.names.length o)).map
      fun i => msg.names.getD ((o + 1 + i) % msg.names.length) "" := by
  have hlen : 0 < msg.names.length := by
    have := (List.getElem?_eq_some_iff.mp ho).1
    omega
  rw [dialled_fresh hnd hfresh ho, targets, List.map_filterMap, ← List.filterMap_eq_map]
  refine List.filterMap_congr fun i _ => ?_
  have hlt : (o + 1 + i) % msg.names.length < msg.names.length := Nat.mod_lt _ hlen
  rw [msg.length_peers, ← List.getElem?_map, msg.map_name_peers, Function.comp_apply,
    List.getD_eq_getElem?_getD, List.getElem?_eq_getElem hlt, Option.getD_some]

/-- Which of the others it dials, by their offsets. -/
theorem Branch.mem_dialled (hnd : msg.names.Nodup) (hfresh : b.knownPeers = [])
    (ho : msg.names[o]? = some b.name) {a : ℕ} {q : Name} (ha : msg.names[a]? = some q) :
    q ∈ b.dialled msg ↔ Reaches msg.names.length o a := by
  obtain ⟨halt, rfl⟩ := List.getElem?_eq_some_iff.mp ha
  rw [dialled_eq_map hnd hfresh ho, List.mem_map]
  constructor
  · rintro ⟨i, hi, hname⟩
    have hlt : (o + 1 + i) % msg.names.length < msg.names.length := Nat.mod_lt _ (by omega)
    rw [List.getD_eq_getElem _ _ hlt] at hname
    exact ⟨i, List.mem_range.mp hi, (List.Nodup.getElem_inj_iff hnd).mp hname⟩
  · rintro ⟨i, hi, rfl⟩
    exact ⟨i, List.mem_range.mpr hi, List.getD_eq_getElem _ _ halt⟩

/-- Every name a branch connects to is on the list. -/
theorem Branch.mem_names_of_mem_dialled (hnd : msg.names.Nodup) (hfresh : b.knownPeers = [])
    (ho : msg.names[o]? = some b.name) {q : Name} (hq : q ∈ b.dialled msg) : q ∈ msg.names := by
  have hlt := (List.getElem?_eq_some_iff.mp ho).1
  rw [dialled_eq_map hnd hfresh ho, List.mem_map] at hq
  obtain ⟨i, _, rfl⟩ := hq
  have hmod : (o + 1 + i) % msg.names.length < msg.names.length := Nat.mod_lt _ (by omega)
  rw [List.getD_eq_getElem _ _ hmod]
  exact List.getElem_mem hmod

/-- A window is shorter than the circle, so no name is repeated in it. -/
theorem Branch.dialled_nodup (hnd : msg.names.Nodup) (hfresh : b.knownPeers = [])
    (ho : msg.names[o]? = some b.name) : (b.dialled msg).Nodup := by
  have holt := (List.getElem?_eq_some_iff.mp ho).1
  have hk := outgoing_lt holt
  rw [dialled_eq_map hnd hfresh ho]
  refine List.Nodup.map_on (fun i hi j hj heq => ?_) List.nodup_range
  rw [List.mem_range] at hi hj
  have hi' : (o + 1 + i) % msg.names.length < msg.names.length := Nat.mod_lt _ (by omega)
  have hj' : (o + 1 + j) % msg.names.length < msg.names.length := Nat.mod_lt _ (by omega)
  rw [List.getD_eq_getElem _ _ hi', List.getD_eq_getElem _ _ hj',
    List.Nodup.getElem_inj_iff hnd, mod_of_lt_add (by omega), mod_of_lt_add (by omega)] at heq
  split at heq <;> split at heq <;> omega

/-- It does not dial itself. -/
theorem Branch.not_mem_dialled_self (hnd : msg.names.Nodup) (hfresh : b.knownPeers = [])
    (ho : msg.names[o]? = some b.name) : b.name ∉ b.dialled msg := by
  rw [mem_dialled hnd hfresh ho ho]
  exact not_reaches_self (List.getElem?_eq_some_iff.mp ho).1

/-- Of two branches exactly one connects to the other, and it does so once. -/
theorem Branch.dialled_once (hnd : msg.names.Nodup) {b b' : Branch} (hb : b.name ∈ msg.names)
    (hb' : b'.name ∈ msg.names) (hfresh : b.knownPeers = []) (hfresh' : b'.knownPeers = [])
    (hne : b.name ≠ b'.name) :
    (b.dialled msg).count b'.name + (b'.dialled msg).count b.name = 1 := by
  obtain ⟨o, ho⟩ := List.mem_iff_getElem?.mp hb
  obtain ⟨a, ha⟩ := List.mem_iff_getElem?.mp hb'
  have hoa : o ≠ a := by
    rintro rfl
    exact hne (Option.some.inj (ho.symm.trans ha))
  have hone := reaches_iff_not (List.getElem?_eq_some_iff.mp ho).1
    (List.getElem?_eq_some_iff.mp ha).1 hoa
  rw [← mem_dialled hnd hfresh ho ha, ← mem_dialled hnd hfresh' ha ho] at hone
  rw [List.Nodup.count (dialled_nodup hnd hfresh ho),
    List.Nodup.count (dialled_nodup hnd hfresh' ha)]
  by_cases hmem : b'.name ∈ b.dialled msg
  · rw [if_pos hmem, if_neg (hone.mp hmem)]
  · rw [if_neg hmem, if_pos (not_not.mp fun h => hmem (hone.mpr h))]

end Dialled

end Cs457.Bank
