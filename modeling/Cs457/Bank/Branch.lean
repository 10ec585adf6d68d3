import Cs457.Bank.Snapshot

/-!
# Bank — the branch

The handlers of `Branch`, as functions from the branch before to the branch after and the
effects on the network. What a handler posts to `d_strand` is appended to `strand` and runs
later (`runTask`); what it does itself, such as crediting a transfer, happens at once.
-/

namespace Cs457.Bank

/-- The closures that are posted to, or wrapped in, `d_strand`. -/
inductive Task where
  | initSnapshot (snapshotId : UInt64)
  | marker (snapshotId : UInt64) (ci : ChannelInfo)
  | retrieveSnapshot (snapshotId : UInt64) (ci : ChannelInfo)
  | hello (name : Name) (ci : ChannelInfo)
  | connected (name : Name) (ch : Channel)
  deriving DecidableEq, Repr

/-- The channel whose message posted the task, where the task holds it. -/
def Task.channel : Task → Option Channel
  | .initSnapshot _ => none
  | .marker _ ci => some ci.second
  | .retrieveSnapshot _ ci => some ci.second
  | .hello _ ci => some ci.second
  | .connected _ ch => some ch

inductive Effect where
  | send (ch : Channel) (msg : BranchMessage)
  | connect (peer : PeerInfo) (ch : Channel)
  | report (text : String)
  deriving DecidableEq, Repr

/-- `handlerName ch` is the name bound in the handler of `ch`: the empty string on an
accepted channel until its Hello has been processed. -/
structure Branch where
  name : Name
  channels : UnorderedMap Name Channel := ∅
  knownPeers : List PeerInfo := []
  money : UInt64 := 0
  snapshot : Option Snapshot := none
  pendingPeers : List Channel := []
  handlerName : Channel → Name := fun _ => ""
  sending : Bool := false
  strand : List Task := []

namespace Branch

/-- `d_strand.post`. -/
def post (b : Branch) (t : Task) : Branch := { b with strand := b.strand ++ [t] }

/-! ## Sending money -/

/-- One pass of the loop in `do_send_money`: what other handlers have added to `d_money`
before it, the number drawn, and whether `compare_exchange_weak` fails for no reason. -/
structure Attempt where
  credit : UInt64 := 0
  draw : UInt64
  spurious : Bool := false
  deriving DecidableEq, Repr

/-- The loop over a sequence of passes, with `d_money` and `curr_money`. It returns the final
`d_money` and `to_send`, and nothing when the passes run out before the loop ends. -/
def sendLoop : List Attempt → UInt64 → UInt64 → Option (UInt64 × UInt64)
  | [], _, _ => none
  | a :: as, money, curr =>
    let money := money + a.credit
    let endBal := curr - a.draw
    if a.draw = 0 then some (money, 0)
    else if endBal > curr then sendLoop as money curr
    -- a failed exchange loads the current balance into `curr_money`
    else if money = curr ∧ a.spurious = false then some (endBal, a.draw)
    else sendLoop as money money

/-- The timer handler of `do_send_money`, which draws the `i`-th entry of `d_channels`. -/
def doSendMoney (b : Branch) (i : ℕ) (attempts : List Attempt) : Option (Branch × List Effect) := do
  let entry ← b.channels.entries[i]?
  let (money, toSend) ← sendLoop attempts b.money b.money
  return ({ b with money := money },
    if toSend > 0 then [.send entry.2 (.transfer toSend)] else [])

/-- A difference above the minuend is how the subtraction shows a borrow. -/
theorem le_of_sub_le {curr draw : UInt64} (h : curr - draw ≤ curr) : draw ≤ curr := by
  by_contra hlt
  rw [UInt64.not_le, UInt64.lt_iff_toNat_lt] at hlt
  rw [UInt64.le_iff_toNat_le, UInt64.toNat_sub] at h
  have := curr.toNat_lt
  have := draw.toNat_lt
  omega

/-- **What the loop commits.** While no other handler touches `d_money`, the loop either
draws nothing and changes nothing, or lowers the balance by what it sends, which the balance
covers. Induction on the passes; the balance and `curr_money` agree throughout. -/
theorem sendLoop_spec {attempts : List Attempt} (hquiet : ∀ a ∈ attempts, a.credit = 0)
    {money money' toSend : UInt64}
    (h : sendLoop attempts money money = some (money', toSend)) :
    toSend ≤ money ∧ money' = money - toSend := by
  induction attempts with
  | nil => cases h
  | cons a as ih =>
    have hcredit : money + a.credit = money := by
      rw [hquiet a List.mem_cons_self, UInt64.add_zero]
    have htail := ih fun x hx => hquiet x (List.mem_cons_of_mem a hx)
    simp only [sendLoop, hcredit] at h
    split at h
    · cases h
      exact ⟨UInt64.zero_le, (UInt64.sub_zero money).symm⟩
    · split at h
      · exact htail h
      · next hle =>
        split at h
        · cases h
          exact ⟨le_of_sub_le (UInt64.not_lt.mp hle), rfl⟩
        · exact htail h

/-- Without credits in between, what `do_send_money` sends is what it has taken off the money, and
it is not more than there was. -/
theorem doSendMoney_eq_some {b : Branch} {i : ℕ} {attempts : List Attempt}
    {r : Branch × List Effect} (hquiet : ∀ a ∈ attempts, a.credit = 0)
    (h : b.doSendMoney i attempts = some r) :
    ∃ e toSend, e ∈ b.channels.entries ∧ toSend ≤ b.money ∧
      r = ({ b with money := b.money - toSend },
        if toSend > 0 then [.send e.2 (.transfer toSend)] else []) := by
  unfold doSendMoney at h
  simp only [Option.bind_eq_bind, Option.bind_eq_some_iff] at h
  obtain ⟨e, he, ⟨money, toSend⟩, hloop, hr⟩ := h
  obtain ⟨hle, rfl⟩ := sendLoop_spec hquiet hloop
  cases hr
  exact ⟨e, toSend, List.mem_of_getElem? he, hle, rfl⟩

/-! ## Joining the other branches -/

/-- How many connections the branch at `offset` of `num` opens. -/
def outgoing (num offset : ℕ) : ℕ :=
  (num - 1) / 2 + if num % 2 = 0 then (if offset < num / 2 then 1 else 0) else 0

/-- The peers the branch at `offset` opens connections to: the following ones, around the
end of the list. -/
def targets (peers : List PeerInfo) (num offset : ℕ) : List PeerInfo :=
  (List.range (outgoing num offset)).filterMap fun i => peers[(offset + 1 + i) % peers.length]?

def initBranchHandler (b : Branch) (msg : InitBranch) : Except Fault (Branch × List Effect) :=
  let peers := b.knownPeers ++ msg.peers
  match peers.findIdx? fun x => x.name = b.name with
  | none => .error (.runtimeError "Init branch message does not include me!")
  | some offset =>
    let opened := targets peers msg.allBranches.length offset
    let channel (peer : PeerInfo) : Channel := ⟨.peer b.name peer.name, .opener⟩
    .ok ({ b with
        money := msg.balance
        knownPeers := peers.eraseIdx offset
        handlerName := fun ch =>
          match opened.find? fun peer => channel peer = ch with
          | some peer => peer.name
          | none => b.handlerName ch
        sending := true },
      opened.map fun peer => .connect peer (channel peer))

/-- The accept handler: the new channel has no name yet. -/
def doAccept (b : Branch) (ch : Channel) : Branch :=
  { b with
    pendingPeers := b.pendingPeers ++ [ch]
    handlerName := fun x => if x = ch then "" else b.handlerName x }

/-! ## Snapshots -/

/-- Take a snapshot of the branch as it is and send a marker on every channel. -/
def startSnapshot (b : Branch) (id : UInt64) : Branch × List Effect :=
  ({ b with snapshot := some (.create id b.money b.knownPeers) },
    b.channels.entries.map fun e => .send e.2 (.marker id))

def initSnapshotTask (b : Branch) (id : UInt64) : Branch × List Effect := b.startSnapshot id

/-- `d_snapshot->marker(name)`. -/
def closeChannel (b : Branch) (sender : Name) : Branch :=
  { b with snapshot := b.snapshot.map fun s => s.marker sender }

def markerTask (b : Branch) (id : UInt64) (ci : ChannelInfo) : Branch × List Effect :=
  if b.snapshot.map Snapshot.id = some id then (b.closeChannel ci.first, [])
  else
    let (b, effects) := b.startSnapshot id
    (b.closeChannel ci.first, effects)

def retrieveSnapshotTask (b : Branch) (id : UInt64) (ci : ChannelInfo) :
    Except Fault (Branch × List Effect) :=
  match b.snapshot with
  | none => .error .nullDereference
  | some s =>
    if id = s.id then
      s.toMessage.map fun msg => (b, [.send ci.second
        (.returnSnapshot { msg with name := b.name })])
    else .ok (b, [.report "Someone requested a nonexistent snapshot"])

/-- `transfer_handler` runs at once, outside the strand. -/
def transferHandler (b : Branch) (money : UInt64) (ci : ChannelInfo) : Branch :=
  { b with
    money := b.money + money
    snapshot := b.snapshot.map fun s => s.recordTx ci.first money }

def helloTask (b : Branch) (name : Name) (ci : ChannelInfo) : Branch :=
  { b with
    pendingPeers := b.pendingPeers.filter fun ch => ch ≠ ci.second
    handlerName := fun x => if x = ci.second then name else b.handlerName x
    channels := b.channels.emplace name ci.second }

/-- The callback of `connect_cb`: the channel is entered and introduces the branch. -/
def connectedTask (b : Branch) (name : Name) (ch : Channel) : Branch × List Effect :=
  ({ b with channels := b.channels.emplace name ch }, [.send ch (.hello b.name)])

/-! ## Dispatch -/

def messageHandler (b : Branch) (msg : BranchMessage) (ci : ChannelInfo) :
    Except Fault (Branch × List Effect) :=
  match msg with
  | .initBranch msg => b.initBranchHandler msg
  | .initSnapshot id => .ok (b.post (.initSnapshot id), [])
  | .marker id => .ok (b.post (.marker id ci), [])
  | .retrieveSnapshot id => .ok (b.post (.retrieveSnapshot id ci), [])
  | .returnSnapshot _ => .ok (b, [])
  | .transfer money => .ok (b.transferHandler money ci, [])
  | .hello name => .ok (b.post (.hello name ci), [])
  | .notSet => .ok (b, [])

/-- The body of a posted task. -/
def perform (b : Branch) : Task → Except Fault (Branch × List Effect)
  | .initSnapshot id => .ok (b.initSnapshotTask id)
  | .marker id ci => .ok (b.markerTask id ci)
  | .retrieveSnapshot id ci => b.retrieveSnapshotTask id ci
  | .hello name ci => .ok (b.helloTask name ci, [])
  | .connected name ch => .ok (b.connectedTask name ch)

/-- Answering RetrieveSnapshot changes nothing at the branch: it sends the snapshot or reports. -/
theorem retrieveSnapshotTask_eq {b : Branch} {id : UInt64} {ci : ChannelInfo}
    {r : Branch × List Effect} (h : b.retrieveSnapshotTask id ci = .ok r) :
    (∃ msg, r = (b, [.send ci.second (.returnSnapshot msg)])) ∨
      ∃ text, r = (b, [.report text]) := by
  unfold retrieveSnapshotTask at h
  split at h
  · cases h
  · next sn _ =>
    split at h
    · cases hmsg : sn.toMessage with
      | error f =>
        rw [hmsg] at h
        cases h
      | ok msg =>
        rw [hmsg] at h
        exact Or.inl ⟨_, (Except.ok.inj h).symm⟩
    · exact Or.inr ⟨_, (Except.ok.inj h).symm⟩

end Branch

end Cs457.Bank
