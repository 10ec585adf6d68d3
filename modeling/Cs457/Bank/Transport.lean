import Cs457.Bank.Message
import Cs457.Lib.BigEndian
import Cs457.Lib.Framing
import Cs457.Lib.Transition

/-!
# Bank — the bytes of a channel

`Channel` sends a message by posting a task to its strand: the task queues the serialized body
and starts a write only if the queue was empty, and the completion of a write, itself a task of
the strand, goes on with the next body. The other end reads a header, a body, and so on.

* **`Queue.Inv.step`** — at most one write is outstanding, and it is of the front of the queue.
* **`received_prefix`** — what the reader makes of any prefix of the bytes.
* **`delivered_in_order`** — the two ends together.
-/

namespace Cs457.Bank

open Transition

/-! ## The header -/

/-- The bytes of a machine word in memory, on a little-endian machine. -/
def hostBytes (value : UInt64) : List UInt8 := (BigEndian.toBytes 8 value.toNat).reverse

def ofHostBytes (bytes : List UInt8) : UInt64 := UInt64.ofNat (BigEndian.ofBytes bytes.reverse)

/-- `htobe64`, which swaps the bytes there. -/
def htonll (value : UInt64) : UInt64 := ofHostBytes (hostBytes value).reverse

/-- `be64toh`. -/
def ntohll (value : UInt64) : UInt64 := ofHostBytes (hostBytes value).reverse

/-- `BranchNetMsg::encode_header`: the swapped size is copied to the header. -/
def encodeHeader (bodySize : UInt64) : List UInt8 := hostBytes (htonll bodySize)

/-- `BranchNetMsg::decode_header`. -/
def decodeHeader (header : List UInt8) : UInt64 := ntohll (ofHostBytes header)

/-- Eight bytes are one number. -/
theorem hostBytes_ofHostBytes {bytes : List UInt8} (h : bytes.length = 8) :
    hostBytes (ofHostBytes bytes) = bytes := by
  have hlen : bytes.reverse.length = 8 := by rw [List.length_reverse, h]
  have hlt : BigEndian.ofBytes bytes.reverse < 2 ^ 64 := by
    have := BigEndian.ofBytes_lt bytes.reverse
    rw [hlen] at this
    omega
  rw [hostBytes, ofHostBytes, UInt64.toNat_ofNat_of_lt' hlt]
  conv_lhs => rw [← hlen]
  rw [BigEndian.toBytes_ofBytes, List.reverse_reverse]

theorem ofHostBytes_hostBytes (value : UInt64) : ofHostBytes (hostBytes value) = value := by
  have hlt : value.toNat < 256 ^ 8 := value.toNat_lt
  rw [ofHostBytes, hostBytes, List.reverse_reverse, BigEndian.ofBytes_toBytes_of_lt hlt,
    UInt64.ofNat_toNat]

@[simp] theorem length_hostBytes (value : UInt64) : (hostBytes value).length = 8 := by
  rw [hostBytes, List.length_reverse, BigEndian.length_toBytes]

/-- **The header is the size in network order.** -/
theorem encodeHeader_eq (bodySize : UInt64) :
    encodeHeader bodySize = BigEndian.toBytes 8 bodySize.toNat := by
  rw [encodeHeader, htonll, hostBytes_ofHostBytes (by simp), hostBytes, List.reverse_reverse]

/-- A header reads back. -/
theorem decodeHeader_encodeHeader (bodySize : UInt64) :
    decodeHeader (encodeHeader bodySize) = bodySize := by
  rw [decodeHeader, encodeHeader, ofHostBytes_hostBytes, ntohll, htonll,
    hostBytes_ofHostBytes (by simp), List.reverse_reverse, ofHostBytes_hostBytes]

/-- The headers as a framing. -/
def netFraming : Framing where
  width := 8
  header n := encodeHeader (UInt64.ofNat n)
  size bytes := (decodeHeader bytes).toNat
  bound := 2 ^ 64
  width_pos := by decide
  length_header n := length_hostBytes _
  size_header n h := by rw [decodeHeader_encodeHeader, UInt64.toNat_ofNat_of_lt' h]

/-! ## The two ends -/

/-- The part of protobuf that a channel uses. -/
structure Codec (M : Type) where
  serialize : M → List UInt8
  parseFromArray : List UInt8 → M

variable {M : Type}

/-- What protobuf promises for a message: below 2 GiB, parsing inverts serializing. -/
def Codec.RoundTrips (codec : Codec M) (msg : M) : Prop :=
  (codec.serialize msg).length < 2 ^ 31 ∧ codec.parseFromArray (codec.serialize msg) = msg

/-- The tasks of `d_strand`: the one that `send_branch_msg` posts and the completion of a
write. -/
inductive QueueTask (M : Type) where
  | send (msg : M)
  | sent
  deriving DecidableEq, Repr

/-- The sending half of a `Channel`: the strand, `d_mq`, the buffers of the writes that are
outstanding, and the bytes that have gone to the socket. -/
structure Queue (M : Type) where
  strand : List (QueueTask M) := []
  mq : List (List UInt8) := []
  writes : List (List UInt8) := []
  socket : List UInt8 := []
  deriving DecidableEq, Repr

namespace Queue

/-- `do_send`; `front()` of an empty queue is undefined. -/
def doSend (q : Queue M) : Option (Queue M) :=
  match q.mq with
  | [] => none
  | buf :: _ => some { q with
      writes := q.writes ++ [encodeHeader (UInt64.ofNat buf.length) ++ buf] }

/-- The next task of the strand. -/
def runTask (codec : Codec M) (q : Queue M) : Option (Queue M) :=
  match q.strand with
  | [] => none
  | .send msg :: rest =>
    let empty := q.mq.isEmpty
    let q := { q with strand := rest, mq := q.mq ++ [codec.serialize msg] }
    if empty then q.doSend else some q
  | .sent :: rest =>
    match q.mq with
    -- `pop_front()` of an empty queue is undefined
    | [] => none
    | _ :: mq =>
      let q := { q with strand := rest, mq := mq }
      if mq.isEmpty then some q else q.doSend

/-- A call of `send_branch_msg`, a task of the strand, the completion of a write. -/
inductive Action (M : Type) where
  | post (msg : M)
  | run
  | written (n : ℕ)
  deriving DecidableEq, Repr

def step (codec : Codec M) (q : Queue M) : Action M → Option (Queue M)
  | .post msg => some { q with strand := q.strand ++ [.send msg] }
  | .run => q.runTask codec
  | .written n =>
    match q.writes[n]? with
    | none => none
    | some bytes => some { q with
        writes := q.writes.eraseIdx n
        socket := q.socket ++ bytes
        strand := q.strand ++ [.sent] }

/-- The messages posted in a run. -/
def posted : List (Action M) → List M
  | [] => []
  | .post msg :: as => msg :: posted as
  | _ :: as => posted as

end Queue

/-- `do_read_header` and `do_read_message` on the bytes that have arrived: the messages given to
the handler. A read that does not get all its bytes does not complete. -/
def doReadHeader (codec : Codec M) : ℕ → List UInt8 → List M
  | 0, _ => []
  | turns + 1, bytes =>
    if bytes.length < 8 then []
    else
      let size := (decodeHeader (bytes.take 8)).toNat
      let rest := bytes.drop 8
      if rest.length < size then []
      else codec.parseFromArray (rest.take size) :: doReadHeader codec turns (rest.drop size)

/-- What the receiver has made of the bytes so far. -/
def received (codec : Codec M) (bytes : List UInt8) : List M :=
  doReadHeader codec (bytes.length + 1) bytes

/-- The bytes of a list of messages: a header and a body for each. -/
def frames (codec : Codec M) (msgs : List M) : List UInt8 :=
  msgs.flatMap fun msg =>
    BigEndian.toBytes 8 (codec.serialize msg).length ++ codec.serialize msg

/-! ## The sender -/

namespace Queue

variable {codec : Codec M} {posts done waiting : List M} {q q' : Queue M}

/-- The messages whose tasks are in the strand. -/
def sends : List (QueueTask M) → List M
  | [] => []
  | .send msg :: tasks => msg :: sends tasks
  | .sent :: tasks => sends tasks

/-- The completions in the strand. -/
def sents : List (QueueTask M) → ℕ
  | [] => 0
  | .send _ :: tasks => sents tasks
  | .sent :: tasks => sents tasks + 1

@[simp] theorem sends_append (as bs : List (QueueTask M)) :
    sends (as ++ bs) = sends as ++ sends bs := by
  induction as with
  | nil => rfl
  | cons a as ih => cases a <;> simp [sends, ih]

@[simp] theorem sents_append (as bs : List (QueueTask M)) :
    sents (as ++ bs) = sents as + sents bs := by
  induction as with
  | nil => simp [sents]
  | cons a as ih =>
    cases a with
    | send msg => exact ih
    | sent =>
      show sents (as ++ bs) + 1 = sents as + 1 + sents bs
      omega

/-- The bytes of messages, as `do_send` writes them. -/
def wire (codec : Codec M) (msgs : List M) : List UInt8 :=
  netFraming.stream (msgs.map codec.serialize)

/-- The frames of messages one after the other. -/
theorem wire_append (as bs : List M) : wire codec (as ++ bs) = wire codec as ++ wire codec bs := by
  rw [wire, List.map_append, Framing.stream_append, wire, wire]

theorem wire_singleton (msg : M) :
    wire codec [msg] = netFraming.frame (codec.serialize msg) := List.append_nil _

/-- What the writer is doing, when `done` has been retired and `waiting` is in the queue. -/
inductive Phase (codec : Codec M) (done waiting : List M) (q : Queue M) : Prop
  | idle (empty : waiting = []) (writes : q.writes = []) (sent : sents q.strand = 0)
      (socket : q.socket = wire codec done)
  | writing (msg : M) (rest : List M) (front : waiting = msg :: rest)
      (writes : q.writes = [netFraming.frame (codec.serialize msg)]) (sent : sents q.strand = 0)
      (socket : q.socket = wire codec done)
  | written (msg : M) (rest : List M) (front : waiting = msg :: rest) (writes : q.writes = [])
      (sent : sents q.strand = 1) (socket : q.socket = wire codec (done ++ [msg]))

/-- **The invariant of the sender.** Every message posted is retired, in the queue, or in a
task of the strand, in this order; a message is being written if and only if one waits. -/
def Inv (codec : Codec M) (posts : List M) (q : Queue M) : Prop :=
  ∃ done waiting, posts = done ++ waiting ++ sends q.strand ∧
    q.mq = waiting.map codec.serialize ∧ Phase codec done waiting q

/-- Nothing has been posted, written or put on the strand. -/
theorem inv_start (codec : Codec M) : Inv codec [] ({} : Queue M) :=
  ⟨[], [], rfl, rfl, .idle rfl rfl rfl rfl⟩

/-- A message is posted: its closure joins the strand. -/
theorem Inv.post (h : Inv codec posts q) (msg : M) :
    Inv codec (posts ++ [msg]) { q with strand := q.strand ++ [.send msg] } := by
  obtain ⟨done, waiting, hposts, hmq, hphase⟩ := h
  refine ⟨done, waiting, ?_, hmq, ?_⟩
  · show posts ++ [msg] = done ++ waiting ++ sends (q.strand ++ [.send msg])
    rw [sends_append, hposts, List.append_assoc]
    rfl
  · have hsents : sents (q.strand ++ [.send msg]) = sents q.strand := sents_append _ _
    cases hphase with
    | idle empty writes sent socket => exact .idle empty writes (hsents.trans sent) socket
    | writing m rest front writes sent socket =>
      exact .writing m rest front writes (hsents.trans sent) socket
    | written m rest front writes sent socket =>
      exact .written m rest front writes (hsents.trans sent) socket

/-- A completed write: there was one, and it was of the front. -/
theorem Inv.written (h : Inv codec posts q) {n : ℕ} {bytes : List UInt8}
    (hn : q.writes[n]? = some bytes) :
    Inv codec posts { q with
      writes := q.writes.eraseIdx n
      socket := q.socket ++ bytes
      strand := q.strand ++ [.sent] } := by
  obtain ⟨done, waiting, hposts, hmq, hphase⟩ := h
  cases hphase with
  | idle empty writes sent socket =>
    rw [writes] at hn
    cases hn
  | written m rest front writes sent socket =>
    rw [writes] at hn
    cases hn
  | writing m rest front writes sent socket =>
    rw [writes, List.getElem?_singleton] at hn
    split at hn
    · next hzero =>
      subst hzero
      obtain rfl := Option.some.inj hn
      -- the one write under way reaches the socket whole
      refine ⟨done, waiting, ?_, hmq, .written m rest front ?_ ?_ ?_⟩
      · show posts = done ++ waiting ++ sends (q.strand ++ [.sent])
        rw [sends_append, hposts]
        exact congrArg _ (List.append_nil _).symm
      · show q.writes.eraseIdx 0 = []
        rw [writes]
        rfl
      · show sents (q.strand ++ [.sent]) = 1
        rw [sents_append, sent]
        rfl
      · show q.socket ++ _ = _
        rw [socket, wire_append, wire_singleton]
    · cases hn

/-- **A task always runs**, and keeps the invariant: `front()` and `pop_front()` are called on
a queue that is not empty. -/
theorem Inv.runTask (h : Inv codec posts q) (hstrand : q.strand ≠ []) :
    ∃ q', q.runTask codec = some q' ∧ Inv codec posts q' := by
  obtain ⟨strand, mq, writes, socket⟩ := q
  obtain ⟨done, waiting, hposts, hmq, hphase⟩ := h
  simp only at hmq
  subst hmq
  cases strand with
  | nil => exact absurd rfl hstrand
  | cons t tasks =>
    cases t with
    | send msg =>
      have hposts' : posts = done ++ (waiting ++ [msg]) ++ sends tasks := by
        rw [hposts, sends]
        simp
      cases hphase with
      | idle empty hwrites hsent hsocket =>
        -- the queue was empty: the task starts the write
        subst empty
        simp only at hwrites
        subst hwrites
        exact ⟨_, rfl, done, [msg], hposts', rfl, .writing msg [] rfl rfl hsent hsocket⟩
      | writing m rest front hwrites hsent hsocket =>
        -- the running write will go on with it
        subst front
        exact ⟨_, rfl, done, m :: rest ++ [msg], hposts', by simp,
          .writing m (rest ++ [msg]) rfl hwrites hsent hsocket⟩
      | written m rest front hwrites hsent hsocket =>
        subst front
        exact ⟨_, rfl, done, m :: rest ++ [msg], hposts', by simp,
          .written m (rest ++ [msg]) rfl hwrites hsent hsocket⟩
    | sent =>
      cases hphase with
      | idle empty hwrites hsent hsocket => exact absurd hsent (Nat.succ_ne_zero _)
      | writing m rest front hwrites hsent hsocket => exact absurd hsent (Nat.succ_ne_zero _)
      | written m rest front hwrites hsent hsocket =>
        subst front
        have hposts' : posts = done ++ [m] ++ rest ++ sends tasks := by
          rw [hposts, sends]
          simp
        have hsent' : sents tasks = 0 := Nat.succ.inj hsent
        simp only at hwrites
        subst hwrites
        cases rest with
        | nil => exact ⟨_, rfl, done ++ [m], [], hposts', rfl, .idle rfl rfl hsent' hsocket⟩
        | cons next rest =>
          exact ⟨_, rfl, done ++ [m], next :: rest, hposts', rfl,
            .writing next rest rfl rfl hsent' hsocket⟩

/-- One step keeps the account of what is posted, queued and written. -/
theorem Inv.step (h : Inv codec posts q) {a : Action M} (hstep : q.step codec a = some q') :
    Inv codec (posts ++ posted [a]) q' := by
  cases a with
  | post msg =>
    obtain rfl := Option.some.inj hstep
    exact h.post msg
  -- A task of the strand that runs leaves the list of posted messages as it is.
  | run =>
    have hstrand : q.strand ≠ [] := by
      intro hnil
      simp only [Queue.step, Queue.runTask, hnil] at hstep
      cases hstep
    obtain ⟨q₁, hrun, hinv⟩ := h.runTask hstrand
    obtain rfl := Option.some.inj (hrun.symm.trans hstep)
    show Inv codec (posts ++ []) q₁
    rwa [List.append_nil]
  | written n =>
    simp only [Queue.step] at hstep
    split at hstep
    · cases hstep
    · next bytes hn =>
      obtain rfl := Option.some.inj hstep
      -- The completion handler posts nothing.
      show Inv codec (posts ++ []) _
      rw [List.append_nil]
      exact h.written hn

theorem posted_cons (a : Action M) (as : List (Action M)) :
    posted (a :: as) = posted [a] ++ posted as := by
  cases a <;> rfl

/-- The invariant along a run, with the messages posted in it. -/
theorem Inv.run (h : Inv codec posts q) {as : List (Action M)}
    (hrun : exec (Queue.step codec) q as = some q') : Inv codec (posts ++ posted as) q' := by
  induction as generalizing posts q with
  | nil =>
    obtain rfl := Option.some.inj hrun
    rw [posted, List.append_nil]
    exact h
  | cons a as ih =>
    obtain ⟨m, hm, hrest⟩ := exec_cons.mp hrun
    have := ih (h.step hm) hrest
    rwa [List.append_assoc, ← posted_cons] at this

/-- What the invariant says about the writes and the bytes. -/
theorem Inv.socket (h : Inv codec posts q) :
    q.writes.length ≤ 1 ∧ (∃ k ≤ posts.length, q.socket = wire codec (posts.take k)) ∧
      (q.strand = [] → q.writes = [] → q.socket = wire codec posts) := by
  obtain ⟨done, waiting, hposts, hmq, hphase⟩ := h
  -- The phases of `doWrite`: nothing queued, the first message being written, the first message
  -- written but not yet popped.
  cases hphase with
  | idle empty writes sent socket =>
    subst empty
    refine ⟨by rw [writes]; decide, ⟨done.length, ?_, ?_⟩, fun hstrand _ => ?_⟩
    · rw [hposts]
      simp
    · rw [hposts, socket, List.append_nil, List.take_left]
    · rw [hposts, socket, hstrand]
      simp [sends]
  | writing m rest front writes sent socket =>
    refine ⟨by rw [writes]; exact le_rfl, ⟨done.length, ?_, ?_⟩, fun _ hnone => ?_⟩
    · rw [hposts, List.append_assoc, List.length_append]
      omega
    · rw [hposts, socket, List.append_assoc, List.take_left]
    · rw [writes] at hnone
      cases hnone
  | written m rest front writes sent socket =>
    have hsplit : posts = (done ++ [m]) ++ (rest ++ sends q.strand) := by
      rw [hposts, front]
      simp
    refine ⟨by rw [writes]; decide, ⟨(done ++ [m]).length, ?_, ?_⟩, fun hstrand _ => ?_⟩
    · rw [hsplit]
      exact (List.prefix_append _ _).length_le
    · rw [socket, hsplit, List.take_left]
    · rw [hstrand] at sent
      cases sent

end Queue

/-! ## The receiver -/

/-- The reader takes a header and then as many bytes as it says. -/
theorem netFraming_read_succ (turns : ℕ) (bytes : List UInt8) :
    netFraming.read (turns + 1) bytes = if bytes.length < 8 then []
      else if (bytes.drop 8).length < (decodeHeader (bytes.take 8)).toNat then []
      else (bytes.drop 8).take (decodeHeader (bytes.take 8)).toNat ::
        netFraming.read turns ((bytes.drop 8).drop (decodeHeader (bytes.take 8)).toNat) := rfl

/-- The two reads are the reader of the framing, with `ParseFromArray` on every body. -/
theorem doReadHeader_eq (codec : Codec M) (turns : ℕ) (bytes : List UInt8) :
    doReadHeader codec turns bytes = (netFraming.read turns bytes).map codec.parseFromArray := by
  induction turns generalizing bytes with
  | zero => rfl
  | succ turns ih =>
    simp only [doReadHeader, netFraming_read_succ, ih]
    split
    · rfl
    · split
      · rfl
      · rfl

variable {codec : Codec M} {msgs : List M}

/-- For bodies that a `size_t` can count, the bytes on the wire are the frames. -/
theorem wire_eq_frames (h : ∀ msg ∈ msgs, codec.RoundTrips msg) :
    Queue.wire codec msgs = frames codec msgs := by
  induction msgs with
  | nil => rfl
  | cons msg msgs ih =>
    have hlen : (codec.serialize msg).length < 2 ^ 64 := by
      have := (h msg List.mem_cons_self).1
      omega
    have hframe : netFraming.frame (codec.serialize msg)
        = BigEndian.toBytes 8 (codec.serialize msg).length ++ codec.serialize msg := by
      show encodeHeader (UInt64.ofNat (codec.serialize msg).length) ++ _ = _
      rw [encodeHeader_eq, UInt64.toNat_ofNat_of_lt' hlen]
    have htail := ih fun m hm => h m (List.mem_cons_of_mem msg hm)
    calc Queue.wire codec (msg :: msgs)
        = netFraming.frame (codec.serialize msg) ++ Queue.wire codec msgs := Framing.stream_cons
      _ = (BigEndian.toBytes 8 (codec.serialize msg).length ++ codec.serialize msg)
          ++ frames codec msgs := by rw [hframe, htail]
      _ = frames codec (msg :: msgs) := by rw [frames, frames, List.flatMap_cons]

/-- **What the receiver makes of a prefix**: exactly the messages that it holds in full. -/
theorem received_prefix (h : ∀ msg ∈ msgs, codec.RoundTrips msg) {bytes : List UInt8}
    (hinit : bytes <+: frames codec msgs) :
    ∃ k ≤ msgs.length, received codec bytes = msgs.take k ∧
      ∀ j ≤ msgs.length, frames codec (msgs.take j) <+: bytes ↔ j ≤ k := by
  have hbodies : ∀ body ∈ msgs.map codec.serialize, body.length < netFraming.bound := by
    intro body hbody
    obtain ⟨msg, hmsg, rfl⟩ := List.mem_map.mp hbody
    have := (h msg hmsg).1
    show (codec.serialize msg).length < 2 ^ 64
    omega
  -- What the socket holds is an initial part of a stream of length-prefixed bodies.
  have hstream : bytes <+: netFraming.stream (msgs.map codec.serialize) := by
    rw [← wire_eq_frames h] at hinit
    exact hinit
  obtain ⟨k, hk, hread, hwhole⟩ :=
    Framing.read_prefix hbodies hstream (Nat.lt_succ_self bytes.length)
  rw [List.length_map] at hk hwhole
  -- A body read whole is parsed to its message.
  have hparsed : ((msgs.take k).map codec.serialize).map codec.parseFromArray = msgs.take k := by
    rw [List.map_map]
    conv_rhs => rw [← List.map_id (msgs.take k)]
    exact List.map_congr_left fun msg hmsg => (h msg (List.mem_of_mem_take hmsg)).2
  refine ⟨k, hk, ?_, fun j hj => ?_⟩
  · rw [received, doReadHeader_eq, hread, ← List.map_take, hparsed]
  · rw [← hwhole j hj, ← List.map_take,
      ← wire_eq_frames fun msg hmsg => h msg (List.mem_of_mem_take hmsg)]
    rfl

/-! ## Both ends -/

/-- **A channel delivers every message once and in order.** In every run of the sender: no task
of the strand meets an empty queue, at most one write is outstanding, the bytes written are the
frames of the first messages posted, and of all of them once nothing is left to do; and the
receiver gets from any prefix of the frames exactly the messages that it holds in full. -/
theorem delivered_in_order {q : Queue M} {as : List (Queue.Action M)}
    (hrun : exec (Queue.step codec) {} as = some q)
    (hmsgs : ∀ msg ∈ Queue.posted as, codec.RoundTrips msg) :
    (q.strand ≠ [] → ∃ q', q.step codec .run = some q') ∧
    q.writes.length ≤ 1 ∧
    (∃ k ≤ (Queue.posted as).length, q.socket = frames codec ((Queue.posted as).take k)) ∧
    (q.strand = [] → q.writes = [] → q.socket = frames codec (Queue.posted as)) ∧
    ∀ bytes, bytes <+: frames codec (Queue.posted as) →
      ∃ k ≤ (Queue.posted as).length, received codec bytes = (Queue.posted as).take k ∧
        ∀ j ≤ (Queue.posted as).length,
          frames codec ((Queue.posted as).take j) <+: bytes ↔ j ≤ k := by
  have hinv : Queue.Inv codec (Queue.posted as) q := (Queue.inv_start codec).run hrun
  obtain ⟨hone, ⟨k, hk, hsocket⟩, hall⟩ := hinv.socket
  refine ⟨fun hstrand => ?_, hone, ⟨k, hk, ?_⟩, fun hstrand hwrites => ?_,
    fun bytes hbytes => received_prefix hmsgs hbytes⟩
  · obtain ⟨q', hq', _⟩ := hinv.runTask hstrand
    exact ⟨q', hq'⟩
  · rw [hsocket, wire_eq_frames fun msg hmsg => hmsgs msg (List.mem_of_mem_take hmsg)]
  · rw [hall hstrand hwrites, wire_eq_frames hmsgs]

/-- Protobuf on a transfer of 5 and on an empty message. -/
def transferCodec : Codec BranchMessage where
  serialize msg := if msg = .transfer 5 then [0x12, 0x02, 0x08, 0x05] else []
  parseFromArray bytes := if bytes = [] then .notSet else .transfer 5

/-- Two messages, the second with an empty body and posted while the first is being written. -/
theorem delivered_in_order_transfer : ∃ q,
    exec (Queue.step transferCodec) {}
      [.post (.transfer 5), .run, .post .notSet, .written 0, .run, .run, .written 0, .run]
        = some q ∧
    q.strand = [] ∧ q.writes = [] ∧
    q.socket = frames transferCodec [.transfer 5, .notSet] ∧
    ∃ k ≤ 2, received transferCodec ((frames transferCodec [.transfer 5, .notSet]).take 13)
      = [.transfer 5, .notSet].take k := by
  have hmsgs : ∀ msg ∈ [BranchMessage.transfer 5, .notSet], transferCodec.RoundTrips msg := by
    simp [Codec.RoundTrips, transferCodec]
  obtain ⟨_, _, _, hall, hread⟩ := @delivered_in_order _ transferCodec _
    [.post (.transfer 5), .run, .post .notSet, .written 0, .run, .run, .written 0, .run] rfl hmsgs
  obtain ⟨k, hk, hreceived, _⟩ := hread _ (List.take_prefix 13 _)
  exact ⟨_, rfl, rfl, rfl, hall rfl rfl, k, hk, hreceived⟩

end Cs457.Bank
