import Mathlib.Order.Lattice
import Mathlib.Data.Prod.Lex
import Mathlib.Data.Int.Order.Basic

/-!
# Key-value store — messages

The protobuf messages of `server.proto`, `client.proto` and `hint.proto`. A `oneof` is an
inductive type with `notSet` for the case in which no field is set.
-/

namespace Cs457.Kv

/-- `google::protobuf::Timestamp`. -/
structure Timestamp where
  seconds : ℤ
  nanos : ℤ
  deriving DecidableEq, Repr

namespace Timestamp

/-- The key of `TimeUtil`'s comparisons: seconds first. -/
def lexKey (t : Timestamp) : ℤ ×ₗ ℤ := toLex (t.seconds, t.nanos)

/-- A time stamp is its seconds and its nanoseconds. -/
theorem lexKey_injective : Function.Injective lexKey := by
  intro a b h
  have h' : (a.seconds, a.nanos) = (b.seconds, b.nanos) := h
  obtain ⟨hs, hn⟩ := Prod.mk.inj h'
  cases a
  cases b
  simp_all

instance : LinearOrder Timestamp := LinearOrder.lift' lexKey lexKey_injective

/-- The stamp that stands for a missing copy. -/
def zero : Timestamp := ⟨0, 0⟩

end Timestamp

structure Introduction where
  ip : String
  port : UInt32
  deriving DecidableEq, Repr

structure DoWrite where
  uuid : String
  key : UInt32
  timestamp : Timestamp
  val : String
  deriving DecidableEq, Repr

structure WriteComplete where
  uuid : String
  deriving DecidableEq, Repr

structure DoRead where
  uuid : String
  key : UInt32
  deriving DecidableEq, Repr

structure ReadComplete where
  uuid : String
  timestamp : Timestamp
  val : String
  deriving DecidableEq, Repr

structure ReadRepair where
  key : UInt32
  deriving DecidableEq, Repr

structure ReadRepairResponse where
  key : UInt32
  timestamp : Timestamp
  val : String
  deriving DecidableEq, Repr

inductive ServerMessage where
  | intro (msg : Introduction)
  | doWrite (msg : DoWrite)
  | writeComplete (msg : WriteComplete)
  | doRead (msg : DoRead)
  | readComplete (msg : ReadComplete)
  | readRepair (msg : ReadRepair)
  | readRepairResponse (msg : ReadRepairResponse)
  | notSet
  deriving DecidableEq, Repr

structure GetKey where
  stream : UInt32
  key : UInt32
  consistency : UInt32
  deriving DecidableEq, Repr

structure GetKeyResp where
  stream : UInt32
  key : UInt32
  val : String
  deriving DecidableEq, Repr

structure PutKey where
  stream : UInt32
  key : UInt32
  val : String
  consistency : UInt32
  deriving DecidableEq, Repr

structure PutKeyResp where
  stream : UInt32
  key : UInt32
  deriving DecidableEq, Repr

inductive ClientMessage where
  | getKey (msg : GetKey)
  | getKeyResp (msg : GetKeyResp)
  | putKey (msg : PutKey)
  | putKeyResp (msg : PutKeyResp)
  | notSet
  deriving DecidableEq, Repr

inductive HintMessage where
  | addHint (replica key : UInt32)
  | dropHint (replica key : UInt32)
  | notSet
  deriving DecidableEq, Repr

/-- An exception that leaves a handler, and with it `io_service.run`. `outOfBounds` is the
undefined behaviour of an index that is not below the size of its array. -/
inductive Fault where
  | runtimeError (what : String)
  | outOfRange
  | outOfBounds
  deriving DecidableEq, Repr

end Cs457.Kv
