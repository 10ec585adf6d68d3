import Mathlib.Data.List.Basic
import Mathlib.Algebra.Ring.Nat

/-!
# Bank — messages, names and channels

The protobuf messages of `bank.proto` and the addressing the branches use. A branch is known
by its name. Two branches talk over a TCP connection that one of them opened; each end of it
is a `Channel` object, so a channel is a connection with a side.
-/

namespace Cs457.Bank

abbrev Name := String

/-- An entry of `InitBranch.all_branches`. -/
structure BranchAddress where
  name : Name
  ip : String
  port : UInt64
  deriving DecidableEq, Repr

structure InitBranch where
  balance : UInt64
  allBranches : List BranchAddress
  deriving DecidableEq, Repr

structure ChannelState where
  name : Name
  inTransit : UInt64
  deriving DecidableEq, Repr

structure LocalSnapshot where
  snapshotId : UInt64
  balance : UInt64
  channelState : List ChannelState
  deriving DecidableEq, Repr

/-- What a local snapshot adds to the bank's books. -/
def LocalSnapshot.worth (l : LocalSnapshot) : Nat :=
  l.balance.toNat + (l.channelState.map fun r => r.inTransit.toNat).sum

structure ReturnSnapshot where
  localSnapshot : LocalSnapshot
  name : Name
  deriving DecidableEq, Repr

/-- The `oneof` of `BranchMessage`, with `notSet` for `BRANCH_MESSAGE_NOT_SET`. -/
inductive BranchMessage where
  | initBranch (msg : InitBranch)
  | transfer (money : UInt64)
  | initSnapshot (snapshotId : UInt64)
  | marker (snapshotId : UInt64)
  | retrieveSnapshot (snapshotId : UInt64)
  | returnSnapshot (msg : ReturnSnapshot)
  | hello (name : Name)
  | notSet
  deriving DecidableEq, Repr

/-- `peer_info`: the port is a `uint16_t` here, the message carries a `uint64`. -/
structure PeerInfo where
  name : Name
  ip : String
  port : UInt16
  deriving DecidableEq, Repr

/-- The entry of `d_known_peers` for an address of the message. -/
def BranchAddress.peer (el : BranchAddress) : PeerInfo := ⟨el.name, el.ip, el.port.toUInt16⟩

def InitBranch.peers (msg : InitBranch) : List PeerInfo := msg.allBranches.map BranchAddress.peer

def InitBranch.names (msg : InitBranch) : List Name := msg.allBranches.map BranchAddress.name

/-- A TCP connection, by who opened it to whom. -/
inductive Connection where
  | controller (branch : Name)
  | peer (opener acceptor : Name)
  deriving DecidableEq, Repr

inductive Side where
  | opener
  | acceptor
  deriving DecidableEq, Repr

/-- One end of a connection: a `Channel` object of the process at that end. -/
structure Channel where
  connection : Connection
  side : Side
  deriving DecidableEq, Repr

namespace Channel

/-- The other end of the connection. -/
def remote (ch : Channel) : Channel :=
  ⟨ch.connection, match ch.side with | .opener => .acceptor | .acceptor => .opener⟩

/-- The branch that owns this end, none for the controller's ends. -/
def host (ch : Channel) : Option Name :=
  match ch.connection, ch.side with
  | .controller _, .opener => none
  | .controller b, .acceptor => some b
  | .peer o _, .opener => some o
  | .peer _ a, .acceptor => some a

@[simp] theorem remote_remote (ch : Channel) : ch.remote.remote = ch := by
  obtain ⟨c, side⟩ := ch
  cases side <;> rfl

end Channel

/-- `channel_info`: the name bound in a channel's handler, and the channel. -/
structure ChannelInfo where
  first : Name
  second : Channel
  deriving DecidableEq, Repr

/-- An exception that leaves a handler, and with it `io_service.run`. `nullDereference` is the
undefined behaviour of following an empty `shared_ptr`. -/
inductive Fault where
  | runtimeError (what : String)
  | badVariantAccess
  | nullDereference
  deriving DecidableEq, Repr

end Cs457.Bank
