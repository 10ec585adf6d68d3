import Cs457.Kv.Coordinator

/-!
# Key-value store — what an event does

The handlers of a coordinator fail, branch and call each other. This module says once what
comes out of them: every event that does not fault is of one of the kinds of `Acts`, each with
the whole state after it and all its effects. The properties of the coordinator are proved by
cases on these kinds and unfold no handler.

* **`Acts`** — the kinds of events.
* **`acts_of_handle`** — every event is of one of them.
-/

namespace Cs457.Kv

/-- The counter of a hint exists. -/
def HintMessage.Counted : HintMessage → Prop
  | .addHint replica key => replica.toNat < Coordinator.hintsSize ∧ key < 256
  | .dropHint replica key => replica.toNat < Coordinator.hintsSize ∧ key < 256
  | .notSet => True

namespace Coordinator

/-- The number of the server at the other end of a channel, once it is known. -/
def idOf (c : Coordinator) : Chan → Option ℕ
  | .outgoing i => some i
  | .accepted k => c.introduced k

/-- The message with which a server introduces itself. -/
def introduction (c : Coordinator) : Introduction :=
  ⟨c.config.listenIp, c.config.listenPort.toUInt32⟩

/-- The completion that an event receives, with the number of its sender. -/
def receives (c : Coordinator) (ev : Event) : List (String × ℕ) :=
  match ev with
  | .server source (.writeComplete msg) => ((c.idOf source).map fun id => (msg.uuid, id)).toList
  | .server source (.readComplete msg) => ((c.idOf source).map fun id => (msg.uuid, id)).toList
  | _ => []

/-- Whether a completion has been received. -/
instance decidableReceived (completion : String × ℕ) (received : List (String × ℕ)) :
    Decidable (completion ∈ received) :=
  List.instDecidableMemOfLawfulBEq completion received

/-- An outgoing channel is one of `m_channels`. -/
def channelExists (c : Coordinator) : Event → Bool
  | .server (.outgoing i) _ => i < c.config.replicas.length
  | _ => true

/-- No task waits. -/
structure Idle (c : Coordinator) : Prop where
  log : c.replica.strand = []
  hints : c.hintStrand = []
  writes : c.writeStrand = []
  reads : c.readStrand = []
  posted : c.posted = []

instance (c : Coordinator) : Decidable c.Idle :=
  decidable_of_iff (c.replica.strand = [] ∧ c.hintStrand = [] ∧ c.writeStrand = [] ∧
      c.readStrand = [] ∧ c.posted = [])
    ⟨fun ⟨hl, hh, hw, hr, hp⟩ => ⟨hl, hh, hw, hr, hp⟩,
      fun ⟨hl, hh, hw, hr, hp⟩ => ⟨hl, hh, hw, hr, hp⟩⟩

/-- What a get posts. -/
def repairTasks (c : Coordinator) (key : UInt32) : List IoTask :=
  if c.config.mode = .readRepair then [.readRepair key] else []

/-- What a put hands to the hint log. -/
def hintAdds (c : Coordinator) (key : UInt32) : List HintTask :=
  if c.config.mode = .hintedHandoff then (List.range hintsSize).map fun i =>
    .update (.addHint (UInt32.ofNat i) key) i key 1 else []

/-- What a completed write hands to the hint log. -/
def hintDrops (c : Coordinator) (sender : ℕ) (key : UInt32) : List HintTask :=
  if c.config.mode = .hintedHandoff
    then [.update (.dropHint (UInt32.ofNat sender) key) sender key (-1)] else []

/-- What the reconnect handler sends after the introduction. -/
def handoff (c : Coordinator) (i : ℕ) : List Effect :=
  if c.config.mode = .hintedHandoff then c.hintedWrites i else []

/-- The own copy, or what stands for it. -/
def copyOf (c : Coordinator) (key : UInt32) : Element := (c.replica.store key).getD missing

/-- **The kinds of events.** -/
inductive Acts (codecs : Codecs) (c : Coordinator) :
    Event → Coordinator → List Effect → Prop
  | getOwn {requestor msg stamp uuid} (key : msg.key < 256) (one : msg.consistency = 1) :
      Acts codecs c (.client requestor (.getKey msg) stamp uuid)
        { c with posted := c.posted ++ c.repairTasks msg.key }
        [.reply requestor (.getKeyResp ⟨msg.stream, msg.key, (c.copyOf msg.key).data⟩)]
  | getMany {requestor msg stamp uuid} (key : msg.key < 256) (many : msg.consistency ≠ 1) :
      Acts codecs c (.client requestor (.getKey msg) stamp uuid)
        { c with
          posted := c.posted ++ c.repairTasks msg.key
          readStrand := c.readStrand ++ [.start msg requestor (c.copyOf msg.key)] } []
  | put {requestor msg stamp uuid replica}
      (write : c.replica.write msg.key msg.val stamp = .ok replica) :
      Acts codecs c (.client requestor (.putKey msg) stamp uuid)
        { c with
          replica := replica
          hintStrand := c.hintStrand ++ c.hintAdds msg.key
          writeStrand := c.writeStrand ++ [.start msg requestor uuid stamp] } []
  | badRequest {requestor msg stamp uuid text} (noGet : ∀ m, msg ≠ .getKey m)
      (noPut : ∀ m, msg ≠ .putKey m) :
      Acts codecs c (.client requestor msg stamp uuid) c [.report text]
  | introduce {k intro id} (unknown : c.introduced k = none)
      (found : c.config.replicas.findIdx? (fun r => r = (intro.ip, toString intro.port.toNat))
        = some id) :
      Acts codecs c (.server (.accepted k) (.intro intro))
        { c with introduced := Function.update c.introduced k (some id) } []
  | doWrite {source msg id replica} (sender : c.idOf source = some id)
      (write : c.replica.write msg.key msg.val msg.timestamp = .ok replica) :
      Acts codecs c (.server source (.doWrite msg)) { c with replica := replica }
        (if msg.uuid = "RR" then [] else [.send (.outgoing id) (.writeComplete ⟨msg.uuid⟩)])
  | writeComplete {source msg id} (sender : c.idOf source = some id) :
      Acts codecs c (.server source (.writeComplete msg))
        { c with writeStrand := c.writeStrand ++ [.complete msg id] } []
  | doRead {source msg id} (sender : c.idOf source = some id) (key : msg.key < 256) :
      Acts codecs c (.server source (.doRead msg)) c [.send source (.readComplete
        ⟨msg.uuid, (c.copyOf msg.key).timestamp, (c.copyOf msg.key).data⟩)]
  | readComplete {source msg id} (sender : c.idOf source = some id) :
      Acts codecs c (.server source (.readComplete msg))
        { c with readStrand := c.readStrand ++ [.complete msg] } []
  | readRepair {source msg id} (sender : c.idOf source = some id) (key : msg.key < 256) :
      Acts codecs c (.server source (.readRepair msg)) c [.send source (.readRepairResponse
        ⟨msg.key, (c.copyOf msg.key).timestamp, (c.copyOf msg.key).data⟩)]
  | repairNewer {source msg id replica} (sender : c.idOf source = some id)
      (newer : ∀ copy ∈ c.replica.store msg.key, copy.timestamp < msg.timestamp)
      (write : c.replica.write msg.key msg.val msg.timestamp = .ok replica) :
      Acts codecs c (.server source (.readRepairResponse msg)) { c with replica := replica }
        (c.broadcast (.doWrite ⟨"RR", msg.key, msg.timestamp, msg.val⟩))
  | repairOlder {source msg id copy} (sender : c.idOf source = some id) (key : msg.key < 256)
      (held : c.replica.store msg.key = some copy) (notNewer : msg.timestamp ≤ copy.timestamp)
      (differs : msg.timestamp < copy.timestamp ∨ copy.data ≠ msg.val) :
      Acts codecs c (.server source (.readRepairResponse msg)) c
        [.send source (.doWrite ⟨"RR", msg.key, copy.timestamp, copy.data⟩)]
  | repairSame {source msg id copy} (sender : c.idOf source = some id) (key : msg.key < 256)
      (held : c.replica.store msg.key = some copy) (stamp : msg.timestamp = copy.timestamp)
      (data : copy.data = msg.val) : Acts codecs c (.server source (.readRepairResponse msg)) c []
  | badMessage {source id text} (sender : c.idOf source = some id) :
      Acts codecs c (.server source .notSet) c [.report text]
  | connected {i} :
      Acts codecs c (.connected i) { c with posted := c.posted ++ [.reconnected i] } []
  | runLog {replica} (task : c.replica.runTask codecs.replica = some replica) :
      Acts codecs c .runLog { c with replica := replica } []
  | runHint {t rest hints hintFile} (head : c.hintStrand = t :: rest)
      (perform : ({ c with hintStrand := rest } : Coordinator).performHint codecs.hints t =
        .ok { c with hintStrand := rest, hints := hints, hintFile := hintFile }) :
      Acts codecs c .runHint { c with hintStrand := rest, hints := hints, hintFile := hintFile } []
  | startWrite {msg requestor uuid stamp rest}
      (head : c.writeStrand = .start msg requestor uuid stamp :: rest) :
      Acts codecs c .runWrite { c with
          writeStrand := rest
          pendingWrites := c.pendingWrites.emplace uuid
            ⟨msg.stream, msg.key, msg.consistency - 1, requestor⟩ }
        ((if msg.consistency = 1 then [.reply requestor (.putKeyResp ⟨msg.stream, msg.key⟩)]
          else []) ++ c.broadcast (.doWrite ⟨uuid, msg.key, stamp, msg.val⟩))
  | completeWrite {msg sender rest pending} (head : c.writeStrand = .complete msg sender :: rest)
      (found : c.pendingWrites.lookup msg.uuid = some pending) :
      Acts codecs c .runWrite { c with
          writeStrand := rest
          pendingWrites := c.pendingWrites.insert msg.uuid
            { pending with consistency := pending.consistency - 1 }
          hintStrand := c.hintStrand ++ c.hintDrops sender pending.key }
        (if pending.consistency = 1
          then [.reply pending.requestor (.putKeyResp ⟨pending.stream, pending.key⟩)] else [])
  | startRead {msg requestor own rest uuid}
      (head : c.readStrand = .start msg requestor own :: rest) :
      Acts codecs c (.runRead uuid) { c with
          readStrand := rest
          pendingReads := c.pendingReads.emplace uuid
            ⟨msg.stream, msg.key, msg.consistency - 1, requestor, [(own.timestamp, own.data)]⟩ }
        (c.broadcast (.doRead ⟨uuid, msg.key⟩))
  | completeRead {msg rest pending uuid} (head : c.readStrand = .complete msg :: rest)
      (found : c.pendingReads.lookup msg.uuid = some pending) (early : pending.consistency ≠ 1) :
      Acts codecs c (.runRead uuid) { c with
          readStrand := rest
          pendingReads := c.pendingReads.insert msg.uuid
            { pending with consistency := pending.consistency - 1 } } []
  | answerRead {msg rest pending uuid result} (head : c.readStrand = .complete msg :: rest)
      (found : c.pendingReads.lookup msg.uuid = some pending) (last : pending.consistency = 1)
      (chosen : newest pending.results = some result) :
      Acts codecs c (.runRead uuid) { c with
          readStrand := rest
          pendingReads := c.pendingReads.insert msg.uuid
            { pending with consistency := pending.consistency - 1 } }
        [.reply pending.requestor (.getKeyResp ⟨pending.stream, pending.key, result.2⟩)]
  | repair {n key} (task : c.posted[n]? = some (.readRepair key)) :
      Acts codecs c (.runPosted n) { c with posted := c.posted.eraseIdx n }
        (c.broadcast (.readRepair ⟨key⟩))
  | reconnected {n i} (task : c.posted[n]? = some (.reconnected i))
      (bound : c.config.mode = .hintedHandoff → i < hintsSize) :
      Acts codecs c (.runPosted n) { c with posted := c.posted.eraseIdx n }
        (.send (.outgoing i) (.intro c.introduction) :: c.handoff i)

/-- No event changes the configuration. -/
theorem Acts.config {codecs : Codecs} {c c' : Coordinator} {ev : Event} {es : List Effect}
    (h : Acts codecs c ev c' es) : c'.config = c.config := by
  cases h <;> rfl

/-! ## The handlers -/

/-- A computation of two parts that succeeds. -/
theorem bind_ok {α β : Type} {x : Except Fault α} {f : α → Except Fault β} {b : β}
    (h : (x >>= f) = .ok b) : ∃ a, x = .ok a ∧ f a = .ok b := by
  cases x with
  | error e => cases h
  | ok a => exact ⟨a, rfl, h⟩

theorem toOption_eq_some {α : Type} {x : Except Fault α} {a : α} (h : x.toOption = some a) :
    x = .ok a := by
  cases x with
  | error e => cases h
  | ok b => exact congrArg _ (Option.some.inj h)

/-- A read that succeeds finds what is stored. -/
theorem read_ok {r : Replica} {key : UInt32} {e : Option Element} (h : r.read key = .ok e) :
    key < 256 ∧ e = r.store key := by
  unfold Replica.read at h
  split at h
  · next hkey => exact ⟨hkey, (Except.ok.inj h).symm⟩
  · cases h

/-- Counting a hint changes the counters only. -/
theorem addHints_ok {c c' : Coordinator} {replica : ℕ} {key : UInt32} {change : ℤ}
    (h : c.addHints replica key change = .ok c') : ∃ hints, c' = { c with hints := hints } := by
  unfold addHints at h
  split at h
  · exact ⟨_, (Except.ok.inj h).symm⟩
  · cases h

/-- A record that is counted is replayed. -/
theorem replayHint_of_counted {msg : HintMessage} (h : msg.Counted) (c : Coordinator) :
    ∃ c', c.replayHint msg = .ok c' := by
  cases msg with
  | addHint replica key => exact ⟨_, if_pos h⟩
  | dropHint replica key => exact ⟨_, if_pos h⟩
  | notSet => exact ⟨c, rfl⟩

/-- A replay changes the counters only. -/
theorem replayHints_ok {msgs : List HintMessage} {c c' : Coordinator}
    (h : msgs.foldlM replayHint c = .ok c') : ∃ hints, c' = { c with hints := hints } := by
  induction msgs generalizing c with
  | nil => exact ⟨c.hints, (Except.ok.inj h).symm⟩
  | cons msg msgs ih =>
    rw [List.foldlM_cons] at h
    obtain ⟨c₁, hc₁, h⟩ := bind_ok h
    obtain ⟨hints, rfl⟩ := ih h
    cases msg with
    | addHint replica key =>
      obtain ⟨_, rfl⟩ := addHints_ok hc₁
      exact ⟨hints, rfl⟩
    | dropHint replica key =>
      obtain ⟨_, rfl⟩ := addHints_ok hc₁
      exact ⟨hints, rfl⟩
    | notSet =>
      obtain rfl := Except.ok.inj hc₁
      exact ⟨hints, rfl⟩

/-- A task of the hint log changes the counters and the hint log only. -/
theorem performHint_ok {codec : Codec HintMessage} {c c' : Coordinator} {t : HintTask}
    (h : c.performHint codec t = .ok c') :
    ∃ hints hintFile, c' = { c with hints := hints, hintFile := hintFile } := by
  cases t with
  | update msg replica key change =>
    obtain ⟨hints, rfl⟩ := addHints_ok h
    exact ⟨hints, _, rfl⟩
  | replay =>
    obtain ⟨hints, rfl⟩ := replayHints_ok h
    exact ⟨hints, c.hintFile, rfl⟩

section Handlers

variable {codecs : Codecs} {c c' : Coordinator} {es : List Effect}

/-- A get is answered or posts its task. -/
theorem acts_of_handleGet {msg : GetKey} {requestor : Client} {stamp : Timestamp} {uuid : String}
    (h : c.handleGet msg requestor = .ok (c', es)) :
    Acts codecs c (.client requestor (.getKey msg) stamp uuid) c' es := by
  obtain ⟨held, hread, h⟩ := bind_ok h
  obtain ⟨hkey, rfl⟩ := read_ok hread
  have hposted : (if c.config.mode = .readRepair
      then { c with posted := c.posted ++ [.readRepair msg.key] } else c) =
      { c with posted := c.posted ++ c.repairTasks msg.key } := by
    unfold repairTasks
    split
    · rfl
    · rw [List.append_nil]
  simp only [hposted] at h
  split at h
  · next hone =>
    cases h
    exact .getOwn hkey hone
  · next hmany =>
    cases h
    exact .getMany hkey hmany

/-- A version that is newer is written and passed on; one that is not is answered with what is
stored, unless both are the same. -/
theorem acts_of_handleReadRepairResponse {msg : ReadRepairResponse} {source : Chan} {id : ℕ}
    (hid : c.idOf source = some id) (h : c.handleReadRepairResponse msg source = .ok (c', es)) :
    Acts codecs c (.server source (.readRepairResponse msg)) c' es := by
  obtain ⟨held, hread, h⟩ := bind_ok h
  obtain ⟨hkey, rfl⟩ := read_ok hread
  -- The branches of `handleReadRepairResponse`: no copy, an older copy, a newer or different one,
  -- the same one.
  cases hheld : c.replica.store msg.key with
  | none =>
    simp only [hheld] at h
    obtain ⟨replica, hwrite, h⟩ := bind_ok h
    cases h
    exact .repairNewer hid (fun copy hcopy => by rw [hheld] at hcopy; cases hcopy) hwrite
  | some copy =>
    simp only [hheld] at h
    split at h
    · next hnewer =>
      obtain ⟨replica, hwrite, h⟩ := bind_ok h
      cases h
      refine .repairNewer hid (fun copy' hcopy' => ?_) hwrite
      rw [hheld] at hcopy'
      obtain rfl := Option.mem_some_iff.mp hcopy'
      exact hnewer
    · next hnotNewer =>
      have hle := not_lt.mp hnotNewer
      -- Not newer: the replica is written back its copy when stamp or data differ.
      split at h
      · next hdiffers =>
        cases h
        exact .repairOlder hid hkey hheld hle hdiffers
      · next hsame =>
        obtain ⟨hstamp, hdata⟩ := not_or.mp hsame
        cases h
        exact .repairSame hid hkey hheld (le_antisymm hle (not_lt.mp hstamp)) (not_not.mp hdata)

/-- A DoWrite is written, and answered unless it is a repair. -/
theorem acts_of_handleDoWrite {msg : DoWrite} {source : Chan} {id : ℕ}
    (hid : c.idOf source = some id) (h : c.handleDoWrite msg id = .ok (c', es)) :
    Acts codecs c (.server source (.doWrite msg)) c' es := by
  obtain ⟨replica, hwrite, h⟩ := bind_ok h
  have hacts := @Acts.doWrite codecs c _ _ _ _ hid hwrite
  simp only at h
  split at h
  · next huuid =>
    split at h
    · cases h
      rw [if_neg huuid] at hacts
      exact hacts
    · cases h
  · next huuid =>
    cases h
    rw [if_pos (not_not.mp huuid)] at hacts
    exact hacts

/-- One case for each message of another server. -/
theorem acts_of_serverMsgHandler {msg : ServerMessage} {source : Chan} {id : ℕ}
    (hid : c.idOf source = some id) (h : c.serverMsgHandler msg source id = .ok (c', es)) :
    Acts codecs c (.server source msg) c' es := by
  -- The `switch` over the message; a second introduction is an error.
  cases msg with
  | intro msg => cases h
  | doWrite msg => exact acts_of_handleDoWrite hid h
  | writeComplete msg =>
    cases h
    exact .writeComplete hid
  | doRead msg =>
    obtain ⟨held, hread, h⟩ := bind_ok h
    obtain ⟨hkey, rfl⟩ := read_ok hread
    cases h
    exact .doRead hid hkey
  | readComplete msg =>
    cases h
    exact .readComplete hid
  | readRepair msg =>
    obtain ⟨held, hread, h⟩ := bind_ok h
    obtain ⟨hkey, rfl⟩ := read_ok hread
    cases h
    exact .readRepair hid hkey
  | readRepairResponse msg => exact acts_of_handleReadRepairResponse hid h
  | notSet =>
    cases h
    exact .badMessage hid

/-- Messages of servers that are known, and Introductions of those that are not. -/
theorem acts_of_channelHandler {msg : ServerMessage} {source : Chan}
    (h : c.channelHandler msg source = .ok (c', es)) :
    Acts codecs c (.server source msg) c' es := by
  cases source with
  | outgoing i => exact acts_of_serverMsgHandler rfl h
  | accepted k =>
    simp only [channelHandler] at h
    cases hid : c.introduced k with
    | none =>
      simp only [hid, unintroducedMsgHandler] at h
      split at h
      · split at h
        · next hfind =>
          cases h
          exact .introduce hid hfind
        · cases h
      · cases h
    | some id =>
      simp only [hid] at h
      exact acts_of_serverMsgHandler hid h

/-- The two tasks of the write strand. -/
theorem acts_of_performWrite {t : WriteTask} {rest : List WriteTask}
    (head : c.writeStrand = t :: rest)
    (h : ({ c with writeStrand := rest } : Coordinator).performWrite t = .ok (c', es)) :
    Acts codecs c .runWrite c' es := by
  cases t with
  | start msg requestor uuid stamp =>
    cases h
    exact .startWrite head
  | complete msg sender =>
    simp only [performWrite, completeWrite] at h
    split at h
    · cases h
    · next pending hfound =>
      cases h
      exact .completeWrite head hfound

/-- The two tasks of the read strand. -/
theorem acts_of_performRead {t : ReadTask} {rest : List ReadTask} {uuid : String}
    (head : c.readStrand = t :: rest)
    (h : ({ c with readStrand := rest } : Coordinator).performRead uuid t = .ok (c', es)) :
    Acts codecs c (.runRead uuid) c' es := by
  cases t with
  | start msg requestor own =>
    cases h
    exact .startRead head
  | complete msg =>
    simp only [performRead, completeRead] at h
    split at h
    · cases h
    · next pending hfound =>
      split at h
      · next hlast =>
        split at h
        · cases h
        · next result hresult =>
          cases h
          exact .answerRead head hfound hlast hresult
      · next hearly =>
        cases h
        exact .completeRead head hfound hearly

/-- The two tasks of the io_service. -/
theorem acts_of_performIo {t : IoTask} {n : ℕ} (task : c.posted[n]? = some t)
    (h : ({ c with posted := c.posted.eraseIdx n } : Coordinator).performIo t = .ok (c', es)) :
    Acts codecs c (.runPosted n) c' es := by
  cases t with
  | readRepair key =>
    cases h
    exact .repair task
  | reconnected i =>
    have hacts := @Acts.reconnected codecs c _ _ task
    simp only [performIo, reconHandler] at h
    split at h
    · next hmode =>
      split at h
      · next hbound =>
        cases h
        simp only [handoff, if_pos hmode] at hacts
        exact hacts fun _ => hbound
      · cases h
    · next hmode =>
      cases h
      simp only [handoff, if_neg hmode] at hacts
      exact hacts fun hmode' => absurd hmode' hmode

/-- **Every event is of one of the kinds.** One case for each constructor of `Event`. -/
theorem acts_of_handle {ev : Event} (h : c.handle codecs ev = some (c', es)) :
    Acts codecs c ev c' es := by
  cases ev with
  | client requestor msg stamp uuid =>
    have h' := toOption_eq_some h
    cases msg with
    | getKey msg => exact acts_of_handleGet h'
    | putKey msg =>
      obtain ⟨replica, hwrite, h'⟩ := bind_ok h'
      cases h'
      exact .put hwrite
    | _ =>
      cases h'
      exact .badRequest nofun nofun
  | server source msg => exact acts_of_channelHandler (toOption_eq_some h)
  | connected i =>
    cases h
    exact .connected
  | runLog =>
    obtain ⟨r, hr, heq⟩ := Option.map_eq_some_iff.mp h
    cases heq
    exact .runLog hr
  | runHint =>
    simp only [handle] at h
    split at h
    · cases h
    · next t rest hstrand =>
      obtain ⟨c₁, hc₁, heq⟩ := Option.map_eq_some_iff.mp h
      cases heq
      have hperform := toOption_eq_some hc₁
      obtain ⟨_, _, rfl⟩ := performHint_ok hperform
      exact .runHint hstrand hperform
  | runWrite =>
    simp only [handle] at h
    split at h
    · cases h
    · next t rest hstrand => exact acts_of_performWrite hstrand (toOption_eq_some h)
  | runRead uuid =>
    simp only [handle] at h
    split at h
    · cases h
    · next t rest hstrand => exact acts_of_performRead hstrand (toOption_eq_some h)
  | runPosted n =>
    simp only [handle] at h
    split at h
    · cases h
    · next t htask => exact acts_of_performIo htask (toOption_eq_some h)

end Handlers

end Coordinator

end Cs457.Kv
