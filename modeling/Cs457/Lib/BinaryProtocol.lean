import Cs457.Lib.BigEndian
import Cs457.Lib.TaggedStruct

/-!
# The binary protocol

`TBinaryProtocol`: numbers are big-endian, sizes are 32-bit and not negative, a field is its type
code and its number, and only messages carry their name. Nothing marks the ends of fields, structs
and lists.

* **`binaryProtocol`** — the protocol, with its laws.
-/

namespace TaggedStruct

open Reading

/-! ## Bytes -/

def readNat (w : ℕ) : Reader ℕ := do return BigEndian.ofBytes (← takeBytes w)

theorem reads_readNat {w n : ℕ} (h : n < 256 ^ w) :
    Reads (readNat w) (BigEndian.toBytes w n) n := by
  have hbytes := (reads_takeBytes (BigEndian.toBytes w n)).bind_pure (f := BigEndian.ofBytes)
  rwa [BigEndian.length_toBytes, BigEndian.ofBytes_toBytes_of_lt h] at hbytes

def readI16 : Reader Int16 := do return (UInt16.ofNat (← readNat 2)).toInt16

def readI32 : Reader Int32 := do return (UInt32.ofNat (← readNat 4)).toInt32

/-- A size; one that is negative as an `i32` is an exception. -/
def readSize : Reader ℕ := do
  let size ← readNat 4
  if size < 2 ^ 31 then return size else failure

def readString : Reader (List UInt8) := do takeBytes (← readSize)

def writeI16 (n : Int16) : List UInt8 := BigEndian.toBytes 2 n.toUInt16.toNat

def writeI32 (n : Int32) : List UInt8 := BigEndian.toBytes 4 n.toUInt32.toNat

def writeString (s : List UInt8) : List UInt8 := BigEndian.toBytes 4 s.length ++ s

theorem reads_readI16 (n : Int16) : Reads readI16 (writeI16 n) n := by
  have hnat := (reads_readNat (w := 2) n.toUInt16.toNat_lt).bind_pure
    (f := fun m => (UInt16.ofNat m).toInt16)
  rwa [UInt16.ofNat_toNat] at hnat

theorem reads_readI32 (n : Int32) : Reads readI32 (writeI32 n) n := by
  have hnat := (reads_readNat (w := 4) n.toUInt32.toNat_lt).bind_pure
    (f := fun m => (UInt32.ofNat m).toInt32)
  rwa [UInt32.ofNat_toNat] at hnat

/-- A size is a 32-bit integer that is not negative. -/
theorem reads_readSize {size : ℕ} (h : size < 2 ^ 31) :
    Reads readSize (BigEndian.toBytes 4 size) size := by
  apply (reads_readNat (show size < 256 ^ 4 by omega)).bind_nil
  rw [if_pos h]
  exact Reads.pure size

/-- A string is read up to its length. -/
theorem reads_readString {s : List UInt8} (h : Short s) : Reads readString (writeString s) s :=
  (reads_readSize h).bind (reads_takeBytes s)

/-- A string is no longer than its size, which is not negative. -/
theorem returns_readString : Returns readString Short := by
  have hsize : Returns readSize fun size => size < 2 ^ 31 := by
    refine Returns.after _ fun size => ?_
    split
    · next h => exact Returns.pure h
    · exact Returns.failure
  refine hsize.bind fun size h input s rest hrun => ?_
  have htake : (if size ≤ input.length then some (input.take size, input.drop size) else none)
      = some (s, rest) := hrun
  split at htake
  · cases htake
    exact (List.length_take_le _ _).trans_lt h
  · cases htake

/-! ## Type codes -/

def TType.code : TType → ℕ
  | stop => 0
  | bool => 2
  | byte => 3
  | double => 4
  | i16 => 6
  | i32 => 8
  | i64 => 10
  | string => 11
  | struct => 12
  | map => 13
  | set => 14
  | list => 15

def TType.all : List TType :=
  [stop, bool, byte, double, i16, i32, i64, string, struct, map, set, list]

def readType : Reader TType := do
  let code ← readNat 1
  match TType.all.find? fun type => type.code = code with
  | some type => return type
  | none => failure

theorem reads_readType (type : TType) :
    Reads readType (BigEndian.toBytes 1 type.code) type := by
  have hlt : type.code < 256 ^ 1 := by
    cases type <;> decide
  have hfind : TType.all.find? (fun t => t.code = type.code) = some type := by
    cases type <;> rfl
  apply (reads_readNat hlt).bind_nil
  rw [hfind]
  exact Reads.pure type

def TMessageType.code : TMessageType → ℕ
  | call => 1
  | reply => 2
  | exception => 3
  | oneway => 4

def TMessageType.ofCode (code : ℕ) : Reader TMessageType :=
  match code with
  | 1 => pure call
  | 2 => pure reply
  | 3 => pure exception
  | 4 => pure oneway
  | _ => failure

/-! ## Values that nobody knows -/

def skipMany (skip : Reader Unit) : ℕ → Reader Unit
  | 0 => pure ()
  | n + 1 => do
    skip
    skipMany skip n

/-- The fields of a struct; every turn takes a type code. -/
def skipFields (skip : TType → Reader Unit) : ℕ → Reader Unit
  | 0 => failure
  | turns + 1 => do
    let type ← readType
    if type = .stop then return ()
    let _ ← readI16
    skip type
    skipFields skip turns

/-- `skip`, with the limit on the nesting of structs and containers. -/
def skip : ℕ → TType → Reader Unit
  | 0, _ => failure
  | depth + 1, type =>
    match type with
    | .stop => pure ()
    | .bool | .byte => do let _ ← takeBytes 1
    | .i16 => do let _ ← takeBytes 2
    | .i32 => do let _ ← takeBytes 4
    | .i64 | .double => do let _ ← takeBytes 8
    | .string => do let _ ← readString
    | .struct => do
      let input ← get
      skipFields (skip depth) (input.length + 1)
    | .map => do
      let key ← readType
      let value ← readType
      let size ← readSize
      skipMany (do skip depth key; skip depth value) size
    | .set | .list => do
      let type ← readType
      let size ← readSize
      skipMany (skip depth type) size

/-! ## The protocol -/

/-- The first word of a message: the version and the type. -/
def messageWord (type : TMessageType) : ℕ := 0x80010000 + type.code

/-- A negative word holds the version; any other one is the size of a name, in the older form. -/
def readMessageBegin : Reader (List UInt8 × TMessageType × Int32) := do
  let word ← readNat 4
  if 2 ^ 31 ≤ word then
    if word / 0x10000 ≠ 0x8001 then failure
    let type ← TMessageType.ofCode (word % 0x100)
    let name ← readString
    let seqid ← readI32
    return (name, type, seqid)
  else
    let name ← takeBytes word
    let type ← TMessageType.ofCode (← readNat 1)
    let seqid ← readI32
    return (name, type, seqid)

def writeMessageBegin (name : List UInt8) (type : TMessageType) (seqid : Int32) : List UInt8 :=
  BigEndian.toBytes 4 (messageWord type) ++ (writeString name ++ writeI32 seqid)

/-- The header of a message: version, name and sequence number. -/
theorem reads_readMessageBegin {name : List UInt8} (h : Short name) (type : TMessageType)
    (seqid : Int32) :
    Reads readMessageBegin (writeMessageBegin name type seqid) (name, type, seqid) := by
  have hword : messageWord type < 256 ^ 4 ∧ 2 ^ 31 ≤ messageWord type ∧
      messageWord type / 0x10000 = 0x8001 ∧
      TMessageType.ofCode (messageWord type % 0x100) = Pure.pure type := by
    cases type <;> exact ⟨by decide, by decide, by decide, rfl⟩
  obtain ⟨hlt, hneg, hversion, htype⟩ := hword
  refine (reads_readNat hlt).bind ?_
  rw [if_pos hneg, if_neg (not_not_intro hversion), htype]
  simp only [pure_bind]
  apply (reads_readString h).bind
  exact (reads_readI32 seqid).bind_pure

def readFieldBegin : Reader (TType × Int16) := do
  let type ← readType
  if type = .stop then return (.stop, 0)
  let id ← readI16
  return (type, id)

/-- The header of a field: type and id. -/
theorem reads_readFieldBegin {type : TType} (h : type ≠ .stop) (id : Int16) :
    Reads readFieldBegin (BigEndian.toBytes 1 type.code ++ writeI16 id) (type, id) := by
  refine (reads_readType type).bind ?_
  rw [if_neg h]
  exact (reads_readI16 id).bind_pure

def readListBegin : Reader (TType × ℕ) := do
  let type ← readType
  let size ← readSize
  return (type, size)

def binaryProtocol : TProtocol where
  writeMessageBegin := writeMessageBegin
  writeMessageEnd := []
  writeStructBegin _ := []
  writeStructEnd := []
  writeFieldBegin _ type id := BigEndian.toBytes 1 type.code ++ writeI16 id
  writeFieldEnd := []
  writeFieldStop := BigEndian.toBytes 1 TType.stop.code
  writeListBegin type size := BigEndian.toBytes 1 type.code ++ BigEndian.toBytes 4 size
  writeListEnd := []
  writeI32 := writeI32
  writeString := writeString
  readMessageBegin := readMessageBegin
  readMessageEnd := pure ()
  readStructBegin := pure ()
  readStructEnd := pure ()
  readFieldBegin := readFieldBegin
  readFieldEnd := pure ()
  readListBegin := readListBegin
  readListEnd := pure ()
  readI32 := readI32
  readString := readString
  skip := skip 64
  reads_messageBegin _ type seqid h := reads_readMessageBegin h type seqid
  reads_messageEnd := Reads.pure ()
  reads_structBegin _ := Reads.pure ()
  reads_structEnd := Reads.pure ()
  reads_fieldBegin _ _ id h := reads_readFieldBegin h id
  reads_fieldEnd := Reads.pure ()
  reads_fieldStop := by
    refine ⟨0, ?_⟩
    apply (reads_readType .stop).bind_nil
    exact Reads.pure _
  reads_listBegin type _ h := by
    apply (reads_readType type).bind
    exact (reads_readSize h).bind_pure
  reads_listEnd := Reads.pure ()
  reads_i32 := reads_readI32
  reads_string _ h := reads_readString h
  returns_string := returns_readString
  fieldBegin_pos _ _ _ := by
    rw [List.length_append, BigEndian.length_toBytes]
    omega

/-! ## Sizes -/

@[simp] theorem length_writeI32 (n : Int32) : (binaryProtocol.writeI32 n).length = 4 :=
  BigEndian.length_toBytes 4 _

@[simp] theorem length_writeString (s : List UInt8) :
    (binaryProtocol.writeString s).length = 4 + s.length := by
  show (BigEndian.toBytes 4 s.length ++ s).length = _
  rw [List.length_append, BigEndian.length_toBytes]

/-- A field takes three bytes for its type and its number, and a struct one for its end. -/
theorem length_writeStruct (name : List UInt8) (fields : List TProtocol.Field) :
    (binaryProtocol.writeStruct name fields).length
      = (fields.map fun f => 3 + f.value.length).sum + 1 := by
  have hfield (f : TProtocol.Field) :
      (binaryProtocol.writeField f).length = 3 + f.value.length := by
    show (BigEndian.toBytes 1 f.type.code ++ writeI16 f.id ++ f.value ++ []).length = _
    simp only [writeI16, List.length_append, BigEndian.length_toBytes, List.length_nil]
    omega
  show ([] ++ fields.flatMap binaryProtocol.writeField ++ BigEndian.toBytes 1 TType.stop.code
    ++ []).length = _
  simp only [List.nil_append, List.append_nil, List.length_append, List.length_flatMap, hfield,
    BigEndian.length_toBytes]

end TaggedStruct
