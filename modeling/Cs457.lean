import Cs457.Lib.Transition
import Cs457.Lib.GlobalSnapshot
import Cs457.Bank.Consistency
import Cs457.Bank.Opening
import Cs457.Bank.Transport
import Cs457.Bank.Succession
import Cs457.Bank.Recording
import Cs457.Kv.Quorum
import Cs457.Kv.Durability
import Cs457.Kv.Channel
import Cs457.Kv.Introduction
import Cs457.Kv.Answers
import Cs457.Kv.Hints
import Cs457.Kv.Handoff
import Cs457.Kv.LastPut
import Cs457.Kv.Origins
import Cs457.Kv.Ties
import Cs457.Kv.Bounds
import Cs457.Kv.Completions
import Cs457.Chord.Lookup
import Cs457.Chord.History
import Cs457.Http.Segmentation
import Cs457.Http.DocumentRoot
import Cs457.Bank.SnapshotCalls
import Cs457.Chord.Fingers
import Cs457.Chord.Linking
import Cs457.Kv.LogStrand
import Cs457.Bank.SendMoney
import Cs457.Http.Sending
import Cs457.Http.RecvMsg
import Cs457.Http.Delimiting
import Cs457.Kv.Convergence
import Cs457.Kv.CatchUp
import Cs457.Kv.Settled
import Cs457.Kv.Survival
import Cs457.Chord.Disk
import Cs457.Chord.Connection
import Cs457.Chord.Hops
import Cs457.Chord.Started
import Cs457.Chord.Deployed
import Cs457.Chord.OneMap
import Cs457.Http.KeepAlive
import Cs457.Bank.Reports
import Cs457.Bank.BranchList
import Cs457.Http.Descriptors
