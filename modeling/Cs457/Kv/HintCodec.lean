import Cs457.Kv.Log
import Cs457.Lib.Varint

/-!
# Key-value store — hints on the wire

The bytes that protobuf writes for the messages of `hint.proto`: a field that is zero is left
out, `msg` is a field with the length of its content in front. Every hint is a few bytes long,
so the hint log never meets protobuf's limit.
-/

namespace Cs457.Kv

namespace HintCodec

/-- A `uint32` field. -/
def field (tag : UInt8) (v : UInt32) : List UInt8 :=
  if v = 0 then [] else tag :: Varint.encode v.toNat

/-- `AddHint` and `DropHint`: `replica = 1` and `key = 2`. -/
def body (replica key : UInt32) : List UInt8 := field 0x08 replica ++ field 0x10 key

/-- `SerializeToOstream`. -/
def serialize : HintMessage → List UInt8
  | .addHint replica key => 0x0a :: UInt8.ofNat (body replica key).length :: body replica key
  | .dropHint replica key => 0x12 :: UInt8.ofNat (body replica key).length :: body replica key
  | .notSet => []

/-- A field that is zero is left out, as protobuf does. -/
theorem field_zero (tag : UInt8) : field tag 0 = [] := if_pos rfl

theorem field_of_ne {tag : UInt8} {v : UInt32} (h : v ≠ 0) :
    field tag v = tag :: Varint.encode v.toNat := if_neg h

/-- A field has one value. -/
theorem field_injective {tag : UInt8} {v w : UInt32} (h : field tag v = field tag w) : v = w := by
  by_cases hv : v = 0 <;> by_cases hw : w = 0
  · rw [hv, hw]
  · rw [hv, field_zero, field_of_ne hw] at h
    cases h
  · rw [hw, field_zero, field_of_ne hv] at h
    cases h
  · rw [field_of_ne hv, field_of_ne hw] at h
    exact UInt32.toNat.inj (Varint.encode_injective (List.cons_eq_cons.mp h).2)

theorem body_of_ne {r : UInt32} (hr : r ≠ 0) (k : UInt32) :
    body r k = 0x08 :: (Varint.encode r.toNat ++ field 0x10 k) := by
  rw [body, field_of_ne hr, List.cons_append]

theorem body_zero (k : UInt32) : body 0 k = field 0x10 k := by
  rw [body, field_zero, List.nil_append]

/-- A body without a replica does not begin like one with. -/
theorem field_ne_cons (k : UInt32) (bytes : List UInt8) : field 0x10 k ≠ 0x08 :: bytes := by
  by_cases hk : k = 0
  · rw [hk, field_zero]
    exact (List.cons_ne_nil _ _).symm
  · rw [field_of_ne hk]
    intro h
    exact absurd (List.cons_eq_cons.mp h).1 (by decide)

/-- A message of two fields has one pair of values: the tags tell which of them is there. -/
theorem body_injective {r r' k k' : UInt32} (h : body r k = body r' k') : r = r' ∧ k = k' := by
  by_cases hr : r = 0 <;> by_cases hr' : r' = 0
  · rw [hr, hr', body_zero, body_zero] at h
    exact ⟨hr.trans hr'.symm, field_injective h⟩
  · rw [hr, body_zero, body_of_ne hr'] at h
    exact absurd h (field_ne_cons k _)
  · rw [hr', body_zero, body_of_ne hr] at h
    exact absurd h.symm (field_ne_cons k' _)
  · rw [body_of_ne hr, body_of_ne hr'] at h
    obtain ⟨hreplica, hkey⟩ := Varint.encode_append_inj (List.cons_eq_cons.mp h).2
    exact ⟨UInt32.toNat.inj hreplica, field_injective hkey⟩

/-- Different messages have different bytes. -/
theorem serialize_injective : Function.Injective serialize := by
  intro a b h
  cases a <;> cases b
  case addHint.addHint =>
    obtain ⟨rfl, rfl⟩ := body_injective (List.cons_eq_cons.mp (List.cons_eq_cons.mp h).2).2
    rfl
  case dropHint.dropHint =>
    obtain ⟨rfl, rfl⟩ := body_injective (List.cons_eq_cons.mp (List.cons_eq_cons.mp h).2).2
    rfl
  case notSet.notSet => rfl
  case addHint.dropHint => exact absurd (List.cons_eq_cons.mp h).1 (by decide)
  case dropHint.addHint => exact absurd (List.cons_eq_cons.mp h).1 (by decide)
  all_goals cases h

/-- A field takes six bytes at most. -/
theorem length_field_le (tag : UInt8) (v : UInt32) : (field tag v).length ≤ 6 := by
  unfold field
  split
  · exact Nat.zero_le _
  · rw [List.length_cons]
    have hlt := v.toNat_lt
    exact Nat.succ_le_succ (@Varint.length_encode_le 4 _ (by omega))

theorem length_body_le (r k : UInt32) : (body r k).length ≤ 12 := by
  rw [body, List.length_append]
  have hr := length_field_le 0x08 r
  have hk := length_field_le 0x10 k
  omega

end HintCodec

/-- protobuf for `HintMessage`. -/
noncomputable def hintProto : Codec HintMessage where
  serialize := HintCodec.serialize
  parseFromArray buf size :=
    haveI : Nonempty HintMessage := ⟨.notSet⟩
    Function.invFun HintCodec.serialize (buf.take size)
  parse_serialize m buf _ hbuf := by
    have : Nonempty HintMessage := ⟨.notSet⟩
    rw [hbuf]
    exact Function.leftInverse_invFun HintCodec.serialize_injective m

/-- Every message is short enough for its frame. -/
theorem hintProto_fits (m : HintMessage) : hintProto.Fits m := by
  show (HintCodec.serialize m).length < 2 ^ 31
  cases m with
  | notSet => exact Nat.two_pow_pos 31
  | addHint r k | dropHint r k =>
    have hbody := HintCodec.length_body_le r k
    simp only [HintCodec.serialize, List.length_cons]
    omega

end Cs457.Kv
