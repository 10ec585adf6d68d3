import Cs457.Lib.Reader
import Mathlib.Data.List.Pairwise
import Mathlib.Data.List.Perm.Basic
import Mathlib.Tactic.Ring

/-!
# Structs with tagged members

A struct travels as a sequence of its members, each behind a header with its number and type, and
ends with a stop. The reader takes them in the order in which they come, keeps those it knows and
skips the others, so either end may know members that the other one does not.

* **`TProtocol`** — what such code calls on the protocol, with the laws it relies on.
* **`Struct`** — the members of a struct; `Struct.write` and `Struct.read`.
* **`Struct.Encodes.reads`** — members in any order, with others among them, are read back.
* **`Struct.encodes_write`** — what is written is such an encoding.
-/

namespace TaggedStruct

open Reading

/-! ## The protocol -/

/-- The type codes. -/
inductive TType where
  | stop | bool | byte | double | i16 | i32 | i64 | string | struct | map | set | list
  deriving DecidableEq, Repr

inductive TMessageType where
  | call | reply | exception | oneway
  deriving DecidableEq, Repr

/-- A string or a list whose size fits the protocol's `i32`. -/
def Short {α : Type} (s : List α) : Prop := s.length < 2 ^ 31

instance {α : Type} (s : List α) : Decidable (Short s) := inferInstanceAs (Decidable (_ < _))

/-- What generated code calls on a protocol. Each reader takes what its writer puts; nothing is
asked of `skip`, so a protocol may refuse what it does not know. -/
structure TProtocol where
  writeMessageBegin : List UInt8 → TMessageType → Int32 → List UInt8
  writeMessageEnd : List UInt8
  writeStructBegin : List UInt8 → List UInt8
  writeStructEnd : List UInt8
  writeFieldBegin : List UInt8 → TType → Int16 → List UInt8
  writeFieldEnd : List UInt8
  writeFieldStop : List UInt8
  writeListBegin : TType → ℕ → List UInt8
  writeListEnd : List UInt8
  writeI32 : Int32 → List UInt8
  writeString : List UInt8 → List UInt8
  readMessageBegin : Reader (List UInt8 × TMessageType × Int32)
  readMessageEnd : Reader Unit
  readStructBegin : Reader Unit
  readStructEnd : Reader Unit
  readFieldBegin : Reader (TType × Int16)
  readFieldEnd : Reader Unit
  readListBegin : Reader (TType × ℕ)
  readListEnd : Reader Unit
  readI32 : Reader Int32
  readString : Reader (List UInt8)
  skip : TType → Reader Unit
  reads_messageBegin : ∀ name type seqid, Short name →
    Reads readMessageBegin (writeMessageBegin name type seqid) (name, type, seqid)
  reads_messageEnd : Reads readMessageEnd writeMessageEnd ()
  reads_structBegin : ∀ name, Reads readStructBegin (writeStructBegin name) ()
  reads_structEnd : Reads readStructEnd writeStructEnd ()
  reads_fieldBegin : ∀ name type id, type ≠ .stop →
    Reads readFieldBegin (writeFieldBegin name type id) (type, id)
  reads_fieldEnd : Reads readFieldEnd writeFieldEnd ()
  reads_fieldStop : ∃ id, Reads readFieldBegin writeFieldStop (.stop, id)
  reads_listBegin : ∀ type size, size < 2 ^ 31 →
    Reads readListBegin (writeListBegin type size) (type, size)
  reads_listEnd : Reads readListEnd writeListEnd ()
  reads_i32 : ∀ n, Reads readI32 (writeI32 n) n
  reads_string : ∀ s, Short s → Reads readString (writeString s) s
  returns_string : Returns readString Short
  fieldBegin_pos : ∀ name type id, 0 < (writeFieldBegin name type id).length

namespace TProtocol

variable (P : TProtocol)

/-- The `switch` of a generated `read`. `body` has the members it knows, by number and type; any
other field is skipped. -/
def readField {ρ : Type} (body : TType → Int16 → Option (ρ → Reader ρ)) (ftype : TType)
    (fid : Int16) (r : ρ) : Reader ρ :=
  match body ftype fid with
  | some read => read r
  | none => do
    P.skip ftype
    return r

/-- The loop of a generated `read`. Every turn takes a header, so the length of the input bounds
the turns. -/
def readFields {ρ : Type} (body : TType → Int16 → Option (ρ → Reader ρ)) : ℕ → ρ → Reader ρ
  | 0, _ => failure
  | turns + 1, r => do
    let (ftype, fid) ← P.readFieldBegin
    if ftype = .stop then return r
    let r ← P.readField body ftype fid r
    P.readFieldEnd
    readFields body turns r

def readStruct {ρ : Type} (body : TType → Int16 → Option (ρ → Reader ρ)) (r : ρ) : Reader ρ := do
  P.readStructBegin
  let input ← get
  let r ← P.readFields body (input.length + 1) r
  P.readStructEnd
  return r

/-- A field on the wire. -/
structure Field where
  name : List UInt8
  type : TType
  id : Int16
  value : List UInt8
  deriving DecidableEq, Repr

def writeField (f : Field) : List UInt8 :=
  P.writeFieldBegin f.name f.type f.id ++ f.value ++ P.writeFieldEnd

def writeStruct (name : List UInt8) (fields : List Field) : List UInt8 :=
  P.writeStructBegin name ++ fields.flatMap P.writeField ++ P.writeFieldStop ++ P.writeStructEnd

variable {P} {ρ : Type} {body : TType → Int16 → Option (ρ → Reader ρ)}

/-- A field that is known is read by its reader, and any other one is skipped. -/
theorem reads_readField {step : ρ → Field → ρ} {f : Field}
    (hknown : ∀ read, body f.type f.id = some read → ∀ r, Reads (read r) f.value (step r f))
    (hunknown : body f.type f.id = none → Reads (P.skip f.type) f.value () ∧ ∀ r, step r f = r)
    (r : ρ) : Reads (P.readField body f.type f.id r) f.value (step r f) := by
  unfold readField
  cases hbody : body f.type f.id with
  | some read => exact hknown read hbody r
  | none =>
    obtain ⟨hskip, hstep⟩ := hunknown hbody
    rw [hstep r]
    exact hskip.bind_pure

/-- **The fields of a struct, one after the other.** `step` is what one field does to the struct
that is being read; a field that is not known leaves it alone. Induction on the fields. -/
theorem reads_readFields {step : ρ → Field → ρ} {fields : List Field}
    (htype : ∀ f ∈ fields, f.type ≠ .stop)
    (hknown : ∀ f ∈ fields, ∀ read, body f.type f.id = some read →
      ∀ r, Reads (read r) f.value (step r f))
    (hunknown : ∀ f ∈ fields, body f.type f.id = none →
      Reads (P.skip f.type) f.value () ∧ ∀ r, step r f = r)
    {turns : ℕ} (hturns : fields.length < turns) (r : ρ) :
    Reads (P.readFields body turns r) (fields.flatMap P.writeField ++ P.writeFieldStop)
      (fields.foldl step r) := by
  induction fields generalizing turns r with
  -- The stop field ends the struct.
  | nil =>
    obtain ⟨turns, rfl⟩ := Nat.exists_eq_succ_of_ne_zero (Nat.ne_zero_of_lt hturns)
    obtain ⟨id, hstop⟩ := P.reads_fieldStop
    intro rest
    rw [Nat.succ_eq_add_one, readFields, List.flatMap_nil, List.nil_append, StateT.run_bind, hstop]
    rfl
  -- A field is read or skipped, and the fold goes on with the rest.
  | cons f fields ih =>
    obtain ⟨turns, rfl⟩ := Nat.exists_eq_succ_of_ne_zero (Nat.ne_zero_of_lt hturns)
    have hrest := ih (fun g hg => htype g (List.mem_cons_of_mem f hg))
      (fun g hg => hknown g (List.mem_cons_of_mem f hg))
      (fun g hg => hunknown g (List.mem_cons_of_mem f hg))
      (Nat.lt_of_succ_lt_succ hturns) (step r f)
    have hbegin := P.reads_fieldBegin f.name f.type f.id (htype f List.mem_cons_self)
    have hvalue : Reads (P.readField body f.type f.id r) f.value (step r f) :=
      reads_readField (hknown f List.mem_cons_self) (hunknown f List.mem_cons_self) r
    rw [List.flatMap_cons, writeField]
    simp only [List.append_assoc]
    unfold readFields
    apply hbegin.bind
    simp only [if_neg (htype f List.mem_cons_self)]
    exact hvalue.bind (P.reads_fieldEnd.bind hrest)

/-- **A struct.** There are no more fields than bytes, so the loop has turns enough. -/
theorem reads_readStruct {step : ρ → Field → ρ} {fields : List Field}
    (htype : ∀ f ∈ fields, f.type ≠ .stop)
    (hknown : ∀ f ∈ fields, ∀ read, body f.type f.id = some read →
      ∀ r, Reads (read r) f.value (step r f))
    (hunknown : ∀ f ∈ fields, body f.type f.id = none →
      Reads (P.skip f.type) f.value () ∧ ∀ r, step r f = r)
    (name : List UInt8) (r : ρ) :
    Reads (P.readStruct body r) (P.writeStruct name fields) (fields.foldl step r) := by
  -- Every field takes at least a byte, so the bytes left are turns enough.
  have hturns : fields.length ≤ (fields.flatMap P.writeField).length := by
    clear htype hknown hunknown
    induction fields with
    | nil => exact Nat.le_refl _
    | cons f fields ih =>
      have hpos := P.fieldBegin_pos f.name f.type f.id
      simp only [List.flatMap_cons, writeField, List.length_append, List.length_cons]
      omega
  intro rest
  simp only [readStruct, writeStruct, List.append_assoc, StateT.run_bind,
    P.reads_structBegin name _]
  have hbytes : fields.length < (fields.flatMap P.writeField ++ (P.writeFieldStop
      ++ (P.writeStructEnd ++ rest))).length + 1 := by
    rw [List.length_append]
    omega
  have hfields := reads_readFields htype hknown hunknown hbytes r
  have hend : Reads (P.readStructEnd >>= fun _ => pure (fields.foldl step r)) P.writeStructEnd
      (fields.foldl step r) := P.reads_structEnd.bind_pure
  have hall := (hfields.bind (f := fun r => P.readStructEnd >>= fun _ => pure r) hend) rest
  simp only [List.append_assoc, StateT.run_bind] at hall
  exact hall

/-- What holds of the struct before a field and is kept by those that are known holds of what is
read. -/
theorem returns_readFields {I : ρ → Prop}
    (hbody : ∀ type id read, body type id = some read → ∀ r, I r → Returns (read r) I)
    (turns : ℕ) {r : ρ} (hr : I r) : Returns (P.readFields body turns r) I := by
  induction turns generalizing r with
  | zero => exact Returns.failure
  | succ turns ih =>
    refine Returns.after _ fun ⟨ftype, fid⟩ => ?_
    simp only
    split
    · exact Returns.pure hr
    · have hfield : Returns (P.readField body ftype fid r) I := by
        unfold readField
        split
        · next read hread => exact hbody ftype fid read hread r hr
        · exact Returns.after _ fun _ => Returns.pure hr
      exact hfield.bind fun r' hr' => Returns.after _ fun _ => ih hr'

/-- What every member keeps is kept by the whole. -/
theorem returns_readStruct {I : ρ → Prop}
    (hbody : ∀ type id read, body type id = some read → ∀ r, I r → Returns (read r) I)
    {r : ρ} (hr : I r) : Returns (P.readStruct body r) I := by
  refine Returns.after _ fun _ => Returns.after _ fun input => ?_
  refine (returns_readFields hbody _ hr).bind fun r' hr' => ?_
  exact Returns.after _ fun _ => Returns.pure hr'

end TProtocol

/-! ## Structs -/

open TProtocol (Field)

/-- A member of a struct, as generated code writes and reads it. `copy x r` is the struct `r`
with this member as in `x`; a member that is a struct itself is read into the one that is there.
`Encodes x bytes` holds of the bytes that some writer may have put for the member of `x`. -/
structure Member (P : TProtocol) (ρ : Type) where
  name : List UInt8
  type : TType
  id : Int16
  write : ρ → Option (List UInt8)
  read : ρ → Reader ρ
  copy : ρ → ρ → ρ
  Encodes : ρ → List UInt8 → Prop
  Fits : ρ → Prop
  type_ne : type ≠ .stop
  reads : ∀ x bytes, Encodes x bytes → ∀ r, Reads (read r) bytes (copy x r)
  encodes_write : ∀ x, Fits x → ∀ bytes, write x = some bytes → Encodes x bytes
  fits_of_encodes : ∀ x bytes, Encodes x bytes → Fits x
  fits_of_unset : ∀ x, write x = none → Fits x

namespace Member

variable {P : TProtocol} {ρ : Type}

/-- The field of a member that is set. -/
def field? (x : ρ) (m : Member P ρ) : Option Field :=
  (m.write x).map fun value => ⟨m.name, m.type, m.id, value⟩

def isSet (x : ρ) (m : Member P ρ) : Bool := (m.write x).isSome

end Member

/-- The members of a struct in the order in which they are written. What is read does not depend
on the order, and a struct is what its members that are set make of the default one. -/
structure Struct (P : TProtocol) (ρ : Type) where
  name : List UInt8
  default : ρ
  members : List (Member P ρ)
  ids : (members.map fun m => m.id).Nodup
  commute : members.Pairwise fun m m' => ∀ x r, m.copy x (m'.copy x r) = m'.copy x (m.copy x r)
  complete : ∀ x, (members.filter (Member.isSet x)).foldl (fun r m => m.copy x r) default = x

namespace Struct

variable {P : TProtocol} {ρ : Type} (s : Struct P ρ)

def write (x : ρ) : List UInt8 := P.writeStruct s.name (s.members.filterMap (Member.field? x))

/-- The member with a number, if it has the type. -/
def member? (type : TType) (id : Int16) : Option (Member P ρ) :=
  s.members.find? fun m => m.id = id ∧ m.type = type

/-- The member that a field is taken for. -/
def taken (f : Field) : Option (Member P ρ) := s.member? f.type f.id

def read (r : ρ) : Reader ρ := P.readStruct (fun type id => (s.member? type id).map Member.read) r

/-- The struct `r` with the members of `x` that are set. -/
def copyAll (x r : ρ) : ρ := (s.members.filter (Member.isSet x)).foldl (fun r m => m.copy x r) r

/-- Every member fits the wire. -/
def Fits (x : ρ) : Prop := ∀ m ∈ s.members, m.Fits x

/-- **What may stand for `x` on the wire.** The fields are the members of `x` that are set, each
of them once, in any order, and between them others: their number or their type is another, and
the protocol can skip them. -/
structure Encodes (x : ρ) (bytes : List UInt8) : Prop where
  exists_fields : ∃ name fields, bytes = P.writeStruct name fields ∧
    (fields.filterMap s.taken).Perm (s.members.filter (Member.isSet x)) ∧
    ∀ f ∈ fields, match s.taken f with
      | some m => m.Encodes x f.value
      | none => f.type ≠ .stop ∧ Reads (P.skip f.type) f.value ()

variable {s} {x : ρ}

/-- A member is found by its type and id, which no other one has. -/
theorem member?_of_mem {m : Member P ρ} (hm : m ∈ s.members) : s.member? m.type m.id = some m := by
  have hfind : ∀ ms : List (Member P ρ), (ms.map fun m => m.id).Nodup → m ∈ ms →
      ms.find? (fun m' => m'.id = m.id ∧ m'.type = m.type) = some m := by
    intro ms hms hmem
    induction ms with
    | nil => cases hmem
    | cons m' ms ih =>
      rw [List.map_cons, List.nodup_cons] at hms
      rcases List.mem_cons.mp hmem with rfl | hmem
      · simp
      · have hne : m'.id ≠ m.id := fun heq =>
          hms.1 (heq ▸ List.mem_map.mpr ⟨m, hmem, rfl⟩)
        rw [List.find?_cons_of_neg (by simp [hne]), ih hms.2 hmem]
  exact hfind s.members s.ids hm

/-- What is found is a member of that type and id. -/
theorem of_member? {type : TType} {id : Int16} {m : Member P ρ} (h : s.member? type id = some m) :
    m ∈ s.members ∧ m.type = type := by
  have hm := List.find?_some h
  simp only [decide_eq_true_eq] at hm
  exact ⟨List.mem_of_find?_eq_some h, hm.2⟩

/-- Members are copied in any order. -/
theorem copy_comm {m m' : Member P ρ} (hm : m ∈ s.members) (hm' : m' ∈ s.members) (x r : ρ) :
    m.copy x (m'.copy x r) = m'.copy x (m.copy x r) := by
  have hsymm : Std.Symm fun m m' : Member P ρ =>
      ∀ x r, m.copy x (m'.copy x r) = m'.copy x (m.copy x r) :=
    ⟨fun _ _ h x r => (h x r).symm⟩
  by_cases heq : m = m'
  · rw [heq]
  · exact s.commute.forall hm hm' heq x r

/-- All members copied onto the default are the whole. -/
theorem copyAll_default : s.copyAll x s.default = x := s.complete x

/-- What a field does to the struct that is being read. -/
def step (s : Struct P ρ) (x r : ρ) (f : Field) : ρ :=
  match s.taken f with
  | some m => m.copy x r
  | none => r

/-- Only the fields that are taken count. -/
theorem foldl_step (fields : List Field) (r : ρ) : fields.foldl (s.step x) r
    = (fields.filterMap s.taken).foldl (fun r m => m.copy x r) r := by
  induction fields generalizing r with
  | nil => rfl
  | cons f fields ih =>
    rw [List.foldl_cons, ih, step]
    cases hm : s.taken f with
    | none => rw [List.filterMap_cons_none hm]
    | some m => rw [List.filterMap_cons_some hm, List.foldl_cons]

/-- **Any fields**, some of them missing and others repeated: they are read one after the other.
`step` is what one field does to the struct that is being read. -/
theorem reads_fields {step : ρ → Field → ρ} {fields : List Field}
    (h : ∀ f ∈ fields, match s.taken f with
      | some m => ∀ r, Reads (m.read r) f.value (step r f)
      | none => f.type ≠ .stop ∧ Reads (P.skip f.type) f.value () ∧ ∀ r, step r f = r)
    (name : List UInt8) (r : ρ) :
    Reads (s.read r) (P.writeStruct name fields) (fields.foldl step r) := by
  refine TProtocol.reads_readStruct (fun f hf => ?_) (fun f hf read hbody r => ?_)
    (fun f hf hbody => ?_) name r
  · have hone := h f hf
    cases hm : s.taken f with
    | none =>
      rw [hm] at hone
      exact hone.1
    | some m => exact (of_member? hm).2 ▸ m.type_ne
  · obtain ⟨m, hm, rfl⟩ := Option.map_eq_some_iff.mp hbody
    have htaken : s.taken f = some m := hm
    have hone := h f hf
    simp only [htaken] at hone
    exact hone r
  · have htaken : s.taken f = none := Option.map_eq_none_iff.mp hbody
    have hone := h f hf
    simp only [htaken] at hone
    exact hone.2

/-- **Whatever stands for a struct is read as the struct.** The members that are read commute. -/
theorem Encodes.reads {bytes : List UInt8} (h : s.Encodes x bytes) (r : ρ) :
    Reads (s.read r) bytes (s.copyAll x r) := by
  obtain ⟨name, fields, rfl, hperm, hall⟩ := h.exists_fields
  have hread : Reads (s.read r) (P.writeStruct name fields) (fields.foldl (s.step x) r) := by
    refine reads_fields (fun f hf => ?_) name r
    have hone := hall f hf
    cases htaken : s.taken f with
    | some m =>
      simp only [htaken] at hone
      intro r
      simp only [step, htaken]
      exact m.reads x f.value hone r
    | none =>
      simp only [htaken] at hone
      exact ⟨hone.1, hone.2, fun r => by simp only [step, htaken]⟩
  have hmem : ∀ m ∈ fields.filterMap s.taken, m ∈ s.members := by
    intro m hm
    obtain ⟨f, _, hf⟩ := List.mem_filterMap.mp hm
    exact (of_member? hf).1
  rw [foldl_step, hperm.foldl_eq' (f := fun r m => m.copy x r)
    (fun m hm m' hm' r => copy_comm (hmem m' hm') (hmem m hm) x r) r] at hread
  exact hread

/-- An encoding is read into the default as the value. -/
theorem Encodes.reads_default {bytes : List UInt8} (h : s.Encodes x bytes) :
    Reads (s.read s.default) bytes x := by
  have hread := h.reads s.default
  rwa [copyAll_default] at hread

/-- Only what fits has an encoding. -/
theorem Encodes.fits {bytes : List UInt8} (h : s.Encodes x bytes) : s.Fits x := by
  obtain ⟨name, fields, rfl, hperm, hall⟩ := h.exists_fields
  intro m hm
  cases hwrite : m.write x with
  | none => exact m.fits_of_unset x hwrite
  | some value =>
    -- the member is set, so one of the fields is taken for it
    have hset : m.isSet x = true := by
      rw [Member.isSet, hwrite]
      rfl
    obtain ⟨f, hf, htaken⟩ := List.mem_filterMap.mp
      (hperm.symm.subset (List.mem_filter.mpr ⟨hm, hset⟩))
    have hone := hall f hf
    simp only [htaken] at hone
    exact m.fits_of_encodes x f.value hone

/-- What every member keeps when it is read holds of a struct that has been read. -/
theorem returns_read {I : ρ → Prop} (h : ∀ m ∈ s.members, ∀ r, I r → Returns (m.read r) I) {r : ρ}
    (hr : I r) : Returns (s.read r) I := by
  refine TProtocol.returns_readStruct (fun type id read hread r hr => ?_) hr
  obtain ⟨m, hm, rfl⟩ := Option.map_eq_some_iff.mp hread
  exact h m (of_member? hm).1 r hr

/-- What the generated code writes is one of the encodings. -/
theorem encodes_write (hfits : s.Fits x) : s.Encodes x (s.write x) := by
  -- A member that is set is written, and its field is taken by that member.
  have hfield : ∀ m ∈ s.members, ∀ f, m.field? x = some f →
      s.taken f = some m ∧ m.write x = some f.value := by
    intro m hm f hf
    obtain ⟨value, hvalue, rfl⟩ := Option.map_eq_some_iff.mp hf
    exact ⟨member?_of_mem hm, hvalue⟩
  refine ⟨⟨s.name, s.members.filterMap (Member.field? x), rfl, ?_, fun f hf => ?_⟩⟩
  · -- So the fields taken are the members that are set, each once and in order.
    have hsame : ∀ ms : List (Member P ρ), (∀ m ∈ ms, m ∈ s.members) →
        (ms.filterMap (Member.field? x)).filterMap s.taken
          = ms.filter (Member.isSet x) := by
      intro ms hms
      induction ms with
      | nil => rfl
      | cons m ms ih =>
        have hrest := ih fun m' hm' => hms m' (List.mem_cons_of_mem m hm')
        cases hf : m.field? x with
        | none =>
          have hset : m.isSet x = false := by
            rw [Member.isSet, Option.map_eq_none_iff.mp hf]
            rfl
          rw [List.filterMap_cons_none hf, hrest, List.filter_cons_of_neg (by simp [hset])]
        | some f =>
          obtain ⟨hmember, hvalue⟩ := hfield m (hms m List.mem_cons_self) f hf
          have hset : m.isSet x = true := by
            rw [Member.isSet, hvalue]
            rfl
          rw [List.filterMap_cons_some hf, List.filterMap_cons_some hmember, hrest,
            List.filter_cons_of_pos hset]
    exact List.Perm.of_eq (hsame s.members fun _ hm => hm)
  · obtain ⟨m, hm, hf⟩ := List.mem_filterMap.mp hf
    obtain ⟨hmember, hvalue⟩ := hfield m hm f hf
    simp only [hmember]
    exact m.encodes_write x (hfits m hm) f.value hvalue

end Struct

/-! ## Kinds of members -/

namespace Member

variable {P : TProtocol} {ρ α : Type}

/-- A member of one type. `get` is its value when it is set, `set` keeps a value that has been
read; what is read may depend on the value that is there. -/
def ofValue (name : List UInt8) (type : TType) (id : Int16) (get : ρ → Option α)
    (set : ρ → α → ρ) (write : α → List UInt8) (read : ρ → Reader α) (merge : ρ → α → α)
    (Encodes : α → List UInt8 → Prop) (Fits : α → Prop) (htype : type ≠ .stop)
    (hreads : ∀ a bytes, Encodes a bytes → ∀ r, Reads (read r) bytes (merge r a))
    (hwrite : ∀ a, Fits a → Encodes a (write a))
    (hfits : ∀ a bytes, Encodes a bytes → Fits a) : Member P ρ where
  name := name
  type := type
  id := id
  write x := (get x).map write
  read r := do return set r (← read r)
  copy x r := match get x with
    | some a => set r (merge r a)
    | none => r
  Encodes x bytes := ∃ a, get x = some a ∧ Encodes a bytes
  Fits x := ∀ a, get x = some a → Fits a
  type_ne := htype
  reads := by
    rintro x bytes ⟨a, ha, hbytes⟩ r
    simp only [ha]
    exact (hreads a bytes hbytes r).bind_pure
  encodes_write := by
    intro x hfits bytes hbytes
    obtain ⟨a, ha, rfl⟩ := Option.map_eq_some_iff.mp hbytes
    exact ⟨a, ha, hwrite a (hfits a ha)⟩
  fits_of_encodes := by
    rintro x bytes ⟨a, ha, hbytes⟩ b hb
    obtain rfl := Option.some.inj (ha.symm.trans hb)
    exact hfits a bytes hbytes
  fits_of_unset := by
    intro x hnone a ha
    rw [ha] at hnone
    cases hnone

def string (name : List UInt8) (id : Int16) (get : ρ → Option (List UInt8))
    (set : ρ → List UInt8 → ρ) : Member P ρ :=
  ofValue name .string id get set P.writeString (fun _ => P.readString) (fun _ s => s)
    (fun s bytes => Short s ∧ bytes = P.writeString s) Short (by decide)
    (by rintro s _ ⟨hs, rfl⟩ _; exact P.reads_string s hs) (fun _ hs => ⟨hs, rfl⟩)
    fun _ _ h => h.1

def i32 (name : List UInt8) (id : Int16) (get : ρ → Option Int32) (set : ρ → Int32 → ρ) :
    Member P ρ :=
  ofValue name .i32 id get set P.writeI32 (fun _ => P.readI32) (fun _ n => n)
    (fun n bytes => bytes = P.writeI32 n) (fun _ => True) (by decide)
    (by rintro n _ rfl _; exact P.reads_i32 n) (fun _ _ => rfl) fun _ _ _ => trivial

/-- A member that is a struct is read into the struct that is there. -/
def struct (s : Struct P α) (name : List UInt8) (id : Int16) (get : ρ → Option α)
    (set : ρ → α → ρ) (there : ρ → α) : Member P ρ :=
  ofValue name .struct id get set s.write (fun r => s.read (there r))
    (fun r a => s.copyAll a (there r)) s.Encodes s.Fits (by decide)
    (fun _ _ h r => h.reads (there r)) (fun _ h => Struct.encodes_write h) fun _ _ h => h.fits

/-- The elements of a list are read into new structs; their type code is not looked at. -/
def readList (s : Struct P α) : Reader (List α) := do
  let (_, size) ← P.readListBegin
  let as ← readMany (s.read s.default) size
  P.readListEnd
  return as

def writeList (s : Struct P α) (as : List α) : List UInt8 :=
  P.writeListBegin .struct as.length ++ (as.flatMap s.write ++ P.writeListEnd)

/-- What may stand for a list: any encodings of its elements. -/
def EncodesList (s : Struct P α) (as : List α) (bytes : List UInt8) : Prop :=
  Short as ∧ ∃ (type : TType) (elems : List (List UInt8)), List.Forall₂ s.Encodes as elems ∧
    bytes = P.writeListBegin type as.length ++ (elems.flatten ++ P.writeListEnd)

/-- A list that is encoded is read. -/
theorem EncodesList.reads {s : Struct P α} {as : List α} {bytes : List UInt8}
    (h : EncodesList s as bytes) : Reads (readList s) bytes as := by
  obtain ⟨hshort, type, elems, helems, rfl⟩ := h
  apply (P.reads_listBegin type as.length hshort).bind
  have hmany : Reads (readMany (s.read s.default) as.length) elems.flatten as :=
    reads_readMany (helems.imp fun _ _ h => h.reads_default)
  apply hmany.bind
  exact P.reads_listEnd.bind_pure

/-- Its elements fit. -/
theorem EncodesList.fits {s : Struct P α} {as : List α} {bytes : List UInt8}
    (h : EncodesList s as bytes) : Short as ∧ ∀ a ∈ as, s.Fits a := by
  obtain ⟨hshort, type, elems, helems, rfl⟩ := h
  refine ⟨hshort, fun a ha => ?_⟩
  obtain ⟨i, hi, rfl⟩ := List.getElem_of_mem ha
  have hget := List.forall₂_iff_get.mp helems
  exact (hget.2 i hi (hget.1 ▸ hi)).fits

/-- What is written for a list encodes it. -/
theorem encodesList_writeList {s : Struct P α} {as : List α} (hshort : Short as)
    (hfits : ∀ a ∈ as, s.Fits a) : EncodesList s as (writeList s as) := by
  refine ⟨hshort, .struct, as.map s.write, ?_, by rw [writeList, List.flatMap_def]⟩
  rw [List.forall₂_map_right_iff, List.forall₂_same]
  exact fun a ha => Struct.encodes_write (hfits a ha)

def list (s : Struct P α) (name : List UInt8) (id : Int16) (get : ρ → Option (List α))
    (set : ρ → List α → ρ) : Member P ρ :=
  ofValue name .list id get set (writeList s) (fun _ => readList s) (fun _ as => as)
    (EncodesList s) (fun as => Short as ∧ ∀ a ∈ as, s.Fits a) (by decide)
    (fun _ _ h _ => h.reads) (fun _ h => encodesList_writeList h.1 h.2) fun _ _ h => h.fits

/-! ## What is read into a member -/

variable {I : ρ → Prop} {name : List UInt8} {id : Int16} {r : ρ}

/-- A string member that may be set to any short string. -/
theorem returns_string {get : ρ → Option (List UInt8)} {set : ρ → List UInt8 → ρ}
    (h : ∀ a, Short a → I (set r a)) :
    Returns ((string (P := P) name id get set).read r) I :=
  P.returns_string.bind fun a ha => Returns.pure (h a ha)

/-- An integer member that may be set to any integer. -/
theorem returns_i32 {get : ρ → Option Int32} {set : ρ → Int32 → ρ} (h : ∀ n, I (set r n)) :
    Returns ((i32 (P := P) name id get set).read r) I :=
  Returns.after _ fun n => Returns.pure (h n)

/-- A member that is a struct itself. -/
theorem returns_struct {s : Struct P α} {get : ρ → Option α} {set : ρ → α → ρ} {there : ρ → α}
    {J : α → Prop} (hs : Returns (s.read (there r)) J) (h : ∀ a, J a → I (set r a)) :
    Returns ((struct s name id get set there).read r) I :=
  hs.bind fun a ha => Returns.pure (h a ha)

/-- A member that is a list of structs. -/
theorem returns_list {s : Struct P α} {get : ρ → Option (List α)} {set : ρ → List α → ρ}
    {J : α → Prop} (hs : Returns (s.read s.default) J) (h : ∀ as, (∀ a ∈ as, J a) → I (set r as)) :
    Returns ((list s name id get set).read r) I := by
  have hlist : Returns (readList s) fun as => ∀ a ∈ as, J a :=
    Returns.after _ fun _ => (returns_readMany hs _).bind fun as has =>
      Returns.after _ fun _ => Returns.pure has
  exact hlist.bind fun as has => Returns.pure (h as has)

end Member

end TaggedStruct
