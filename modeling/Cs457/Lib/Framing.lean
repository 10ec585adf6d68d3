import Mathlib.Data.List.Infix

/-!
# Length-prefixed frames

A stream of byte strings, each behind a header of fixed width that gives its length. The
reader takes a header, then as many bytes as it says, in turn, and stops when bytes are
missing. `read_prefix` is the contract: from any prefix of a stream the reader gets exactly
the bodies that the prefix holds in full, in order.
-/

/-- A header codec: `size` reads back what `header` wrote, for lengths below `bound`. -/
structure Framing where
  width : ℕ
  header : ℕ → List UInt8
  size : List UInt8 → ℕ
  bound : ℕ
  width_pos : 0 < width
  length_header : ∀ n, (header n).length = width
  size_header : ∀ n < bound, size (header n) = n

namespace Framing

variable (F : Framing)

def frame (body : List UInt8) : List UInt8 := F.header body.length ++ body

/-- The frames of a list of bodies, one after the other. -/
def stream (bodies : List (List UInt8)) : List UInt8 := bodies.flatMap F.frame

/-- The bodies that a reader finds. Every turn takes at least a header, so the length of the
bytes bounds the number of turns. -/
def read : ℕ → List UInt8 → List (List UInt8)
  | 0, _ => []
  | turns + 1, bytes =>
    if bytes.length < F.width then []
    else
      let size := F.size (bytes.take F.width)
      let rest := bytes.drop F.width
      if rest.length < size then [] else rest.take size :: read turns (rest.drop size)

variable {F} {body : List UInt8} {bodies : List (List UInt8)} {bytes : List UInt8}

@[simp] theorem stream_nil : F.stream [] = [] := rfl

@[simp] theorem stream_cons : F.stream (body :: bodies) = F.frame body ++ F.stream bodies :=
  List.flatMap_cons

theorem stream_append {others : List (List UInt8)} :
    F.stream (bodies ++ others) = F.stream bodies ++ F.stream others := List.flatMap_append

/-- A frame is its header and its body. -/
theorem length_frame : (F.frame body).length = F.width + body.length := by
  rw [frame, List.length_append, F.length_header]

/-- A whole frame at the front is read. -/
theorem read_frame (hbody : body.length < F.bound) (turns : ℕ) (bytes : List UInt8) :
    F.read (turns + 1) (F.frame body ++ bytes) = body :: F.read turns bytes := by
  have htake : (F.frame body ++ bytes).take F.width = F.header body.length := by
    rw [frame, List.append_assoc, List.take_left' (F.length_header _)]
  have hdrop : (F.frame body ++ bytes).drop F.width = body ++ bytes := by
    rw [frame, List.append_assoc, List.drop_left' (F.length_header _)]
  have hlen : ¬ (F.frame body ++ bytes).length < F.width := by
    rw [List.length_append, length_frame]
    omega
  have hrest : ¬ (body ++ bytes).length < body.length := by
    rw [List.length_append]
    omega
  rw [read, if_neg hlen]
  simp only [htake, hdrop, F.size_header _ hbody, if_neg hrest, List.take_left, List.drop_left]

/-- Part of a frame is not. -/
theorem read_part (hbody : body.length < F.bound) (hpart : bytes <+: F.frame body)
    (hshort : bytes.length < (F.frame body).length) (turns : ℕ) : F.read turns bytes = [] := by
  cases turns with
  | zero => rfl
  | succ turns =>
    rw [read]
    by_cases hheader : bytes.length < F.width
    · exact if_pos hheader
    · have htake : bytes.take F.width = F.header body.length := by
        have hle := (List.IsPrefix.take hpart F.width).eq_of_length
        rw [frame, List.take_left' (F.length_header _), List.length_take, F.length_header] at hle
        exact hle (by omega)
      rw [length_frame] at hshort
      have hrest : (bytes.drop F.width).length < body.length := by
        rw [List.length_drop]
        omega
      simp only [htake, F.size_header _ hbody, if_neg hheader, if_pos hrest]

/-- **What is read from a prefix.** The first `k` bodies, where `k` is the number of frames
that the prefix holds in full. Induction on the bodies: the prefix ends inside the first frame
or goes past it. -/
theorem read_prefix {turns : ℕ} (hbodies : ∀ body ∈ bodies, body.length < F.bound)
    (hinit : bytes <+: F.stream bodies) (hturns : bytes.length < turns) :
    ∃ k ≤ bodies.length, F.read turns bytes = bodies.take k ∧
      ∀ j ≤ bodies.length, F.stream (bodies.take j) <+: bytes ↔ j ≤ k := by
  induction bodies generalizing bytes turns with
  | nil =>
    have hnil : bytes = [] := List.prefix_nil.mp hinit
    subst hnil
    refine ⟨0, le_rfl, ?_, fun j hj => ?_⟩
    · cases turns with
      | zero => rfl
      | succ turns => exact if_pos F.width_pos
    · have hj : j = 0 := Nat.le_zero.mp hj
      subst hj
      exact iff_of_true (List.prefix_refl _) le_rfl
  | cons body bodies ih =>
    have hbody : body.length < F.bound := hbodies body List.mem_cons_self
    rw [stream_cons] at hinit
    rcases Nat.lt_or_ge bytes.length (F.frame body).length with hshort | hlong
    · -- the first record is cut: nothing is read
      have hpart : bytes <+: F.frame body :=
        List.prefix_of_prefix_length_le hinit (List.prefix_append _ _) hshort.le
      refine ⟨0, Nat.zero_le _, read_part hbody hpart hshort turns, fun j _ => ?_⟩
      cases j with
      | zero => exact iff_of_true (List.nil_prefix) le_rfl
      | succ j =>
        apply iff_of_false _ (Nat.not_succ_le_zero j)
        intro hlater
        have hle := hlater.length_le
        rw [List.take_succ_cons, stream_cons, List.length_append] at hle
        omega
    · -- the first record is there in full: it is read, then the rest
      obtain ⟨bytes, rfl⟩ := List.prefix_of_prefix_length_le (List.prefix_append _ _) hinit hlong
      have hrest : bytes <+: F.stream bodies := (List.prefix_append_right_inj _).mp hinit
      rw [List.length_append, length_frame] at hturns
      have hpos := F.width_pos
      cases turns with
      | zero => omega
      | succ turns =>
        obtain ⟨k, hk, hread, hwhole⟩ := ih (fun b hb => hbodies b (List.mem_cons_of_mem body hb))
          hrest (show bytes.length < turns by omega)
        refine ⟨k + 1, Nat.succ_le_succ hk, ?_, fun j hj => ?_⟩
        · rw [read_frame hbody, hread, List.take_succ_cons]
        · cases j with
          | zero => exact iff_of_true (List.nil_prefix) (Nat.zero_le _)
          | succ j =>
            rw [List.take_succ_cons, stream_cons, List.prefix_append_right_inj,
              hwhole j (Nat.le_of_succ_le_succ hj), Nat.succ_le_succ_iff]

/-- A whole stream is read back. -/
theorem read_stream {turns : ℕ} (hbodies : ∀ body ∈ bodies, body.length < F.bound)
    (hturns : (F.stream bodies).length < turns) : F.read turns (F.stream bodies) = bodies := by
  obtain ⟨k, hk, hread, hwhole⟩ := read_prefix hbodies (List.prefix_refl _) hturns
  have hall : bodies.length ≤ k := by
    apply (hwhole bodies.length le_rfl).mp
    rw [List.take_length]
  rw [hread, List.take_of_length_le hall]

end Framing
