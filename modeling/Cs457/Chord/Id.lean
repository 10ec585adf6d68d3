import Cs457.Lib.Numeral
import Mathlib.Order.Lattice

/-!
# Chord — identifiers

Node ids and the keys of files are strings of lower-case hex digits, made by `sha256` and
compared as strings. The digest itself is a parameter, as the program takes it from OpenSSL;
its hex form is the program's own.
-/

namespace Cs457.Chord

/-- The order of bytes is linear. -/
instance instLinearOrderUInt8 : LinearOrder UInt8 where
  le_refl _ := UInt8.le_refl _
  le_trans _ _ _ := UInt8.le_trans
  lt_iff_le_not_ge _ _ := by
    rw [UInt8.not_le]
    exact ⟨fun h => ⟨UInt8.le_of_lt h, h⟩, And.right⟩
  le_antisymm _ _ := UInt8.le_antisymm
  le_total := UInt8.le_total
  toDecidableLE := inferInstance
  toDecidableEq := inferInstance
  toDecidableLT := inferInstance

/-- `std::string` and Python's `str`: bytes, compared from the first one on. -/
abbrev Str := List UInt8

/-- A string of the source. -/
def str (s : String) : Str := s.toByteArray.data.toList

/-- `NodeID` of `chord.thrift`. -/
structure NodeID where
  id : Str
  ip : Str
  port : Int32
  deriving DecidableEq, Repr

/-- `EVP_sha256`. -/
abbrev Digest := Str → Vector UInt8 32

/-- The table `hs` of `init`. -/
def hs : List UInt8 :=
  [0x30, 0x31, 0x32, 0x33, 0x34, 0x35, 0x36, 0x37, 0x38, 0x39, 0x61, 0x62, 0x63, 0x64, 0x65, 0x66]

/-- `hs[r]`, for an index below 16. -/
def hexDigit (r : ℕ) : UInt8 := hs.getD r 0x30

/-- The dictionary `hsd`; a key error is `none`. -/
def hsd (ch : UInt8) : Option ℕ := hs.idxOf? ch

/-- The digest, each byte printed with `%02x`. -/
def sha256 (digest : Digest) (message : Str) : Str :=
  (digest message).toList.flatMap fun byte =>
    [hexDigit (byte.toNat / 16), hexDigit (byte.toNat % 16)]

/-- The id of the server at an address. -/
def nodeId (digest : Digest) (ip : Str) (port : Int32) : Str :=
  sha256 digest (ip ++ str ":" ++ str (toString port.toInt))

/-! ## Hex strings and their values -/

def IsHex (s : Str) : Prop := ∀ ch ∈ s, ch ∈ hs

instance (s : Str) : Decidable (IsHex s) := List.decidableBAll (· ∈ hs) s

/-- The value of a digit. -/
def digitOf (ch : UInt8) : ℕ := hs.idxOf ch

/-- The value of a hex string. -/
def hexValue (s : Str) : ℕ := Numeral.value 16 (s.map digitOf)

/-- The search in `hs` finds the value of a digit. -/
theorem hsd_eq_some {ch : UInt8} (h : ch ∈ hs) : hsd ch = some (digitOf ch) := by
  revert ch
  decide +kernel

theorem digitOf_lt {ch : UInt8} (h : ch ∈ hs) : digitOf ch < 16 := List.idxOf_lt_length_of_mem h

/-- What is printed for a value below 16 is a digit. -/
theorem hexDigit_mem {r : ℕ} (h : r < 16) : hexDigit r ∈ hs := by
  revert r
  decide +kernel

theorem digitOf_hexDigit {r : ℕ} (h : r < 16) : digitOf (hexDigit r) = r := by
  revert r
  decide +kernel

/-- The letters come after the digits. -/
theorem digitOf_lt_digitOf {a c : UInt8} (ha : a ∈ hs) (hc : c ∈ hs) :
    a < c ↔ digitOf a < digitOf c := by
  revert c
  revert a
  decide +kernel

/-- Digits with one value are one digit. -/
theorem digitOf_inj {a c : UInt8} (ha : a ∈ hs) (h : digitOf a = digitOf c) : a = c :=
  (List.idxOf_inj ha).mp h

theorem IsHex.digits_lt {s : Str} (h : IsHex s) : ∀ d ∈ s.map digitOf, d < 16 := by
  intro d hd
  obtain ⟨ch, hch, rfl⟩ := List.mem_map.mp hd
  exact digitOf_lt (h ch hch)

/-- The order of strings is that of their digits. -/
theorem IsHex.map_lt_map {s t : Str} (hsx : IsHex s) (htx : IsHex t) :
    s < t ↔ s.map digitOf < t.map digitOf := by
  induction s generalizing t with
  | nil => cases t <;> simp
  | cons a s ih =>
    cases t with
    | nil => simp
    | cons c t =>
      have ha : a ∈ hs := hsx a List.mem_cons_self
      have hc : c ∈ hs := htx c List.mem_cons_self
      have hrest := ih (fun x hx => hsx x (List.mem_cons_of_mem a hx))
        fun x hx => htx x (List.mem_cons_of_mem c hx)
      have heq : a = c ↔ digitOf a = digitOf c := ⟨congrArg _, digitOf_inj ha⟩
      rw [List.map_cons, List.map_cons, List.cons_lt_cons_iff, List.cons_lt_cons_iff, hrest,
        digitOf_lt_digitOf ha hc, heq]

/-- An id: the form of every digest. -/
structure IsId (s : Str) : Prop where
  hex : IsHex s
  length : s.length = 64

/-- **Ids are compared as numbers.** -/
theorem IsId.lt_iff {s t : Str} (hsx : IsId s) (htx : IsId t) :
    s < t ↔ hexValue s < hexValue t := by
  rw [hsx.hex.map_lt_map htx.hex, hexValue, hexValue]
  refine Numeral.lt_iff_value_lt (by decide) ?_ hsx.hex.digits_lt htx.hex.digits_lt
  rw [List.length_map, List.length_map, hsx.length, htx.length]

/-- The order of ids is that of their values. -/
theorem IsId.le_iff {s t : Str} (hsx : IsId s) (htx : IsId t) :
    s ≤ t ↔ hexValue s ≤ hexValue t := by
  rw [← not_lt, ← Nat.not_lt, htx.lt_iff hsx]

theorem IsId.value_lt {s : Str} (h : IsId s) : hexValue s < 16 ^ 64 := by
  have hlt := Numeral.value_lt (b := 16) (by decide) h.hex.digits_lt
  rwa [List.length_map, h.length] at hlt

/-- A hash in hexadecimal is an id. -/
theorem isId_sha256 (digest : Digest) (message : Str) : IsId (sha256 digest message) := by
  constructor
  · intro ch hch
    obtain ⟨byte, _, hch⟩ := List.mem_flatMap.mp hch
    have hbyte := byte.toNat_lt
    rcases List.mem_pair.mp hch with rfl | rfl
    · exact hexDigit_mem (by omega)
    · exact hexDigit_mem (by omega)
  · rw [sha256, List.length_flatMap]
    simp

/-- The greatest id. -/
def top : Str := List.replicate 64 0x66

theorem isId_top : IsId top := ⟨by decide +kernel, rfl⟩

theorem hexValue_top : hexValue top = 16 ^ 64 - 1 := by decide +kernel

/-- No id is above sixty-four `f`s. -/
theorem IsId.le_top {s : Str} (h : IsId s) : s ≤ top := by
  have hlt := h.value_lt
  rw [h.le_iff isId_top, hexValue_top]
  omega

end Cs457.Chord
