import Cs457.Kv.Channel
import Cs457.Kv.Events
import Cs457.Kv.HintCodec
import Cs457.Kv.Recovery

/-!
# Key-value store — introductions

A coordinator together with its outgoing channels: what a handler sends is queued in the strand
of a channel, and a connect that succeeds posts the handler that sends the introduction. Tasks
that other handlers have queued in the same strand may run before it.

* **`Channel.line_step`** — what is and will be written on the latest connection only grows at
  its end.
* **`Server.step`** — an event of the coordinator, or a step of one of its channels.
* **`Server.introduction_first`** — the introduction comes first, when no other message is sent
  and no reconnect begins while one is due.
-/

namespace Cs457.Kv

open Transition

/-! ## The messages of one connection -/

namespace Channel

variable {M : Type} {c c' : Channel M} {a : Action M}

/-- The messages written on the connection of an attempt. -/
def framesOf (c : Channel M) (k : ℕ) : List M :=
  (c.frames.filter fun frame => frame.1 = k).map fun frame => frame.2

/-- The messages written on the latest connection, and those that wait for it. The front of the
queue waits no more once its write has completed. -/
def line (c : Channel M) : List M :=
  c.framesOf c.attempts ++ (c.mq.drop (okWritten c.strand).length).map (·.msg)

/-- The message that a step puts into the queue. -/
def queues (c : Channel M) : Action M → List M
  | .run => match c.strand with
    | .send msg :: _ => [msg]
    | _ => []
  | _ => []

/-- Writes belong to the latest attempt, and nothing belongs to a later one. -/
structure Tagged (c : Channel M) : Prop where
  orderly : Orderly c
  writes : ∀ w ∈ c.writes, w.attempt = c.attempts
  frames : ∀ frame ∈ c.frames, frame.1 ≤ c.attempts
  connects : ∀ k ∈ c.connects, k ≤ c.attempts
  established : ∀ k ∈ c.established, k ≤ c.attempts

/-- At the start no frame has been sent. -/
theorem tagged_start : Tagged (start : Channel M) where
  orderly := orderly_start
  writes := List.forall_mem_nil _
  frames := List.forall_mem_nil _
  connects := fun _ hk => (List.mem_singleton.mp hk).le
  established := List.forall_mem_nil _

@[simp] theorem reconnect_attempts (c : Channel M) : c.reconnect.attempts = c.attempts := by
  unfold reconnect
  split <;> rfl

@[simp] theorem reconnect_frames (c : Channel M) : c.reconnect.frames = c.frames := by
  unfold reconnect
  split <;> rfl

@[simp] theorem reconnect_established (c : Channel M) :
    c.reconnect.established = c.established := by
  unfold reconnect
  split <;> rfl

/-- An error changes neither the queue nor what has been written. -/
theorem line_fail (c : Channel M) : c.fail.line = c.line := by
  show (c.reconnect.framesOf c.reconnect.attempts ++
    (c.reconnect.mq.drop (okWritten c.reconnect.strand).length).map (·.msg)) = c.line
  rw [okWritten_reconnect, reconnect_mq, reconnect_attempts, framesOf, reconnect_frames]
  rfl

/-- A connection that is still to come has no frames. -/
theorem framesOf_eq_nil {k : ℕ} (h : ∀ frame ∈ c.frames, frame.1 < k) : c.framesOf k = [] := by
  rw [framesOf, List.filter_eq_nil_iff.mpr, List.map_nil]
  intro frame hframe hk
  exact Nat.lt_irrefl _ (of_decide_eq_true hk ▸ h frame hframe)

/-- **What a step adds to the line**, unless it is a new attempt. -/
theorem line_step (h : Tagged c) (hmoves : Moves c a c') (hsame : c'.attempts = c.attempts) :
    c'.line = c.line ++ c.queues a := by
  cases hmoves with
  | @send msg =>
    show c.framesOf c.attempts ++ (c.mq.drop (okWritten (c.strand ++ [.send msg])).length).map _ =
      c.line ++ []
    rw [okWritten_append, show okWritten [ChannelTask.send msg] = [] from rfl, List.append_nil,
      List.append_nil]
    rfl
  | @queue msg rest strand busy =>
    -- the buffer is put behind the front
    have hle : (okWritten c.strand).length ≤ c.mq.length := by
      have hone : (c.writes ++ okWritten c.strand).length ≤ 1 := h.orderly.1
      have hpos := List.length_pos_of_ne_nil busy
      rw [List.length_append] at hone
      omega
    rw [queues, strand, line, line, strand]
    rw [strand] at hle
    rw [show okWritten (.send msg :: rest) = okWritten rest from rfl] at hle
    show c.framesOf c.attempts ++ ((c.mq ++ [_]).drop (okWritten rest).length).map _ = _
    rw [List.drop_append_of_le_length hle, List.map_append, List.append_assoc]
    rfl
  | @begin msg rest strand mq =>
    obtain ⟨-, hok⟩ := h.orderly.idle mq
    rw [queues, strand, line, line, hok, mq]
    rw [strand] at hok
    show c.framesOf c.attempts ++ (List.drop (okWritten rest).length [_]).map _ = _
    rw [show okWritten rest = [] from hok, List.length_nil, List.drop_zero, List.drop_zero,
      List.map_nil, List.append_nil]
    rfl
  | @retire w rest buffer strand mq =>
    obtain ⟨-, hok⟩ := h.orderly.retiring strand
    rw [queues, strand, line, line, strand, mq, List.append_nil]
    show c.framesOf c.attempts ++ (List.drop (okWritten rest).length []).map _ =
      c.framesOf c.attempts ++ (List.drop ((okWritten rest).length + 1) [_]).map _
    rw [hok]
    rfl
  | @next w rest buffer front tail strand mq =>
    obtain ⟨-, hok⟩ := h.orderly.retiring strand
    rw [queues, strand, line, line, strand, mq, List.append_nil]
    show c.framesOf c.attempts ++ (List.drop (okWritten rest).length (front :: tail)).map _ =
      c.framesOf c.attempts ++ (List.drop ((okWritten rest).length + 1) (_ :: front :: tail)).map _
    rw [hok]
    rfl
  | unwritten strand =>
    rw [line_fail, queues, strand, line, line, strand, List.append_nil]
    rfl
  | renew strand => exact absurd hsame (Nat.succ_ne_self _)
  | cancelled strand =>
    rw [queues, strand, line, line, strand, List.append_nil]
    rfl
  | @written n ec w write =>
    obtain ⟨-, hok, hfront⟩ := h.orderly.completing write
    obtain ⟨tail, hmq⟩ := List.head?_eq_some_iff.mp hfront
    show ((c.frames ++ if ec = .ok then [(w.attempt, w.buffer.msg)] else []).filter
        fun frame => frame.1 = c.attempts).map (fun frame => frame.2) ++
      (c.mq.drop (okWritten (c.strand ++ [.written ec w])).length).map (·.msg) = c.line ++ []
    rw [List.filter_append, List.map_append, okWritten_append, List.append_nil, line, hok, hmq]
    cases ec with
    | ok =>
      -- the front moves from the queue to the frames
      have htag : w.attempt = c.attempts := h.writes w (List.mem_of_getElem? write)
      have hown : [(w.attempt, w.buffer.msg)].filter (fun frame => frame.1 = c.attempts) =
          [(w.attempt, w.buffer.msg)] := by simp [htag]
      rw [if_pos rfl, hown, List.append_assoc]
      rfl
    | failed =>
      rw [if_neg nofun, List.filter_nil, List.map_nil, List.append_nil]
      rfl
  | read pending => exact (List.append_nil _).symm
  | unread pending => exact (line_fail _).trans (List.append_nil _).symm
  | connected pending => exact (List.append_nil _).symm
  | refused pending => exact (line_fail _).trans (List.append_nil _).symm
  | expire armed =>
    show c.framesOf c.attempts ++ (c.mq.drop (okWritten (c.strand ++ [.timer .ok])).length).map _ =
      c.line ++ []
    rw [okWritten_append, show okWritten [(.timer .ok : ChannelTask M)] = [] from rfl,
      List.append_nil, List.append_nil]
    rfl

/-- An error. -/
theorem Tagged.fail (h : Tagged c) : Tagged c.fail where
  orderly := h.orderly.fail
  writes := by
    show ∀ w ∈ c.reconnect.writes, w.attempt = c.reconnect.attempts
    rw [reconnect_writes, reconnect_attempts]
    exact h.writes
  frames := by
    show ∀ frame ∈ c.reconnect.frames, frame.1 ≤ c.reconnect.attempts
    rw [reconnect_frames, reconnect_attempts]
    exact h.frames
  connects := by
    show ∀ k ∈ c.reconnect.connects, k ≤ c.reconnect.attempts
    rw [reconnect_connects, reconnect_attempts]
    exact h.connects
  established := by
    show ∀ k ∈ c.reconnect.established, k ≤ c.reconnect.attempts
    rw [reconnect_established, reconnect_attempts]
    exact h.established

/-- A write that is started belongs to the latest attempt. -/
theorem Tagged.begun (h : Tagged c) (front : Buffer M) :
    ∀ w ∈ c.writes ++ [⟨front, c.attempts⟩], w.attempt = c.attempts := by
  intro w hw
  rcases List.mem_append.mp hw with hw | hw
  · exact h.writes w hw
  · obtain rfl := List.mem_singleton.mp hw
    rfl

/-- **One step.** -/
theorem Tagged.step (h : Tagged c) (hidle : ClearsIdle c a) (hstep : c.step a = some c') :
    Tagged c' := by
  have horderly : Orderly c' := h.orderly.step hidle hstep
  cases moves_of_step hstep with
  | send | queue | retire | cancelled | read | expire =>
    exact ⟨horderly, h.writes, h.frames, h.connects, h.established⟩
  | begin strand mq => exact ⟨horderly, h.begun _, h.frames, h.connects, h.established⟩
  | next strand mq => exact ⟨horderly, h.begun _, h.frames, h.connects, h.established⟩
  | unwritten strand =>
    exact Tagged.fail ⟨h.orderly.uncons strand rfl, h.writes, h.frames, h.connects, h.established⟩
  | @renew rest strand =>
    -- no write is left of the attempts before
    have hnone : c.live = [] := hidle rfl (congrArg List.head? strand)
    have hwrites : c.writes = [] := (List.append_eq_nil_iff.mp hnone).1
    refine ⟨horderly, fun w hw => ?_, fun frame hframe => ?_, fun k hk => ?_, fun k hk => ?_⟩
    · have hmem : w ∈ c.writes := hw
      rw [hwrites] at hmem
      cases hmem
    · exact Nat.le_succ_of_le (h.frames frame hframe)
    · rcases List.mem_append.mp hk with hk | hk
      · exact Nat.le_succ_of_le (h.connects k hk)
      · exact (List.mem_singleton.mp hk).le
    · exact Nat.le_succ_of_le (h.established k hk)
  | @written n ec w write =>
    refine ⟨horderly, fun v hv => h.writes v (List.eraseIdx_subset hv), fun frame hframe => ?_,
      h.connects, h.established⟩
    rcases List.mem_append.mp hframe with hframe | hframe
    · exact h.frames frame hframe
    · split at hframe
      · obtain rfl := List.mem_singleton.mp hframe
        exact (h.writes w (List.mem_of_getElem? write)).le
      · cases hframe
  | unread pending =>
    exact Tagged.fail ⟨h.orderly, h.writes, h.frames, h.connects, h.established⟩
  | @connected n attempt pending =>
    refine ⟨horderly, h.writes, h.frames, fun k hk => h.connects k (List.eraseIdx_subset hk),
      fun k hk => ?_⟩
    rcases List.mem_append.mp hk with hk | hk
    · exact h.established k hk
    · obtain rfl := List.mem_singleton.mp hk
      exact h.connects k (List.mem_of_getElem? pending)
  | refused pending =>
    exact Tagged.fail ⟨h.orderly, h.writes, h.frames,
      fun k hk => h.connects k (List.eraseIdx_subset hk), h.established⟩

/-- Nothing is written any more on an older connection. -/
theorem framesOf_step (h : Tagged c) (hmoves : Moves c a c') {k : ℕ} (hk : k < c.attempts) :
    c'.framesOf k = c.framesOf k := by
  cases hmoves with
  | @written n ec w write =>
    have htag : w.attempt = c.attempts := h.writes w (List.mem_of_getElem? write)
    have hother : (if ec = .ok then [(w.attempt, w.buffer.msg)] else []).filter
        (fun frame : ℕ × M => frame.1 = k) = [] := by
      split
      · simp only [htag]
        exact List.filter_cons_of_neg (by simpa using hk.ne')
      · rfl
    show ((c.frames ++ _).filter _).map _ = _
    rw [List.filter_append, hother, List.append_nil]
    rfl
  | unwritten | unread | refused =>
    rw [framesOf, fail, reconnect_frames]
    rfl
  | _ => rfl

/-- What waits to be sent waits after a failure as well. -/
theorem send_of_fail {msg : M} (h : .send msg ∈ c.fail.strand) : .send msg ∈ c.strand := by
  obtain ⟨tasks, hstrand, htasks⟩ := reconnect_strand c
  rw [fail, hstrand] at h
  refine (List.mem_append.mp h).resolve_right fun h => ?_
  cases htasks _ h

/-- Only a call of `send_msg` queues a task that sends. -/
theorem send_of_moves (hmoves : Moves c a c') (ha : ∀ msg, a ≠ .send msg) {msg : M}
    (hmem : .send msg ∈ c'.strand) : .send msg ∈ c.strand := by
  cases hmoves with
  | @send m => exact absurd rfl (ha m)
  | queue strand | begin strand | retire strand | next strand | renew strand | cancelled strand =>
    rw [strand]
    exact List.mem_cons_of_mem _ hmem
  | unwritten strand =>
    rw [strand]
    exact List.mem_cons_of_mem _ (send_of_fail hmem)
  | written write =>
    refine (List.mem_append.mp hmem).resolve_right fun h => ?_
    cases List.mem_singleton.mp h
  | read pending => exact hmem
  | @unread n op pending => exact @send_of_fail _ { c with reads := c.reads.eraseIdx n } _ hmem
  | connected pending => exact hmem
  | @refused n attempt pending =>
    exact @send_of_fail _ { c with connects := c.connects.eraseIdx n } _ hmem
  | expire armed =>
    refine (List.mem_append.mp hmem).resolve_right fun h => ?_
    cases List.mem_singleton.mp h

end Channel

/-! ## A coordinator and its channels -/

/-- `has_intro`. -/
def ServerMessage.isIntro : ServerMessage → Bool
  | .intro _ => true
  | _ => false

/-- A coordinator with the channels of `m_channels`. -/
structure Server where
  coordinator : Coordinator
  channels : ℕ → Channel ServerMessage

namespace Server

inductive Action where
  /-- an event of the coordinator -/
  | event (ev : Coordinator.Event)
  /-- a step of `m_channels[i]` -/
  | channel (i : ℕ) (a : Channel.Action ServerMessage)
  deriving DecidableEq, Repr

/-- `initialize_outgoing` starts every channel. -/
def start (config : Config) (file hintFile : List UInt8) : Server where
  coordinator := Coordinator.create config file hintFile
  channels := fun _ => Channel.start

/-- A message for an outgoing channel is a call of its `send_msg`. -/
def transmit (channels : ℕ → Channel ServerMessage) : Effect → ℕ → Channel ServerMessage
  | .send (.outgoing i) msg => Function.update channels i ((channels i).sendMsg msg)
  | _ => channels

/-- The event that a step of a channel is for the coordinator: a connect that succeeds posts its
handler. -/
def announce (c : Coordinator) (i : ℕ) : Channel.Action ServerMessage → Coordinator
  | .connected _ .ok => { c with posted := c.posted ++ [.reconnected i] }
  | _ => c

/-- Connects complete on the channels, and `send_msg` is called by the coordinator only. -/
def step (codecs : Coordinator.Codecs) (s : Server) : Action → Option Server
  | .event (.connected _) => none
  | .event ev => (s.coordinator.handle codecs ev).map fun (c, es) =>
      ⟨c, es.foldl transmit s.channels⟩
  | .channel _ (.send _) => none
  | .channel i a =>
    if i < s.coordinator.config.replicas.length then
      ((s.channels i).step a).map fun c =>
        ⟨announce s.coordinator i a, Function.update s.channels i c⟩
    else none

/-! ## The introduction of a connection -/

/-- The task sends an introduction. -/
def greets : ChannelTask ServerMessage → Bool
  | .send msg => msg.isIntro
  | _ => false

/-- The introductions that are due on a channel: the handler is posted, or its message has not
been put into the queue. -/
def due (s : Server) (i : ℕ) : ℕ :=
  s.coordinator.posted.count (.reconnected i) + (s.channels i).strand.countP greets

/-- A task runs when `n` introductions are due: another message is sent only after the
introduction of a connection, and a reconnect begins only when the connection before it is
complete and nothing is being written. -/
def Permits (n : ℕ) (c : Channel ServerMessage) : ChannelTask ServerMessage → Prop
  | .send msg => msg.isIntro = true ∨ (c.connects = [] ∧ n = 0)
  | .timer .ok => c.connects = [] ∧ n = 0 ∧ c.live = []
  | _ => True

instance Permits.decidable (n : ℕ) (c : Channel ServerMessage) : ∀ t, Decidable (Permits n c t)
  | .send _ => inferInstanceAs (Decidable (_ ∨ _))
  | .timer .ok => inferInstanceAs (Decidable (_ ∧ _))
  | .timer .failed => isTrue trivial
  | .written _ _ => isTrue trivial

/-- **The condition on a step.** -/
def Waits (s : Server) (a : Action) : Prop :=
  match a with
  | .channel i .run => ∀ t ∈ (s.channels i).strand.head?, Permits (s.due i) (s.channels i) t
  | _ => True

instance Waits.decidable (s : Server) : ∀ a, Decidable (Waits s a)
  | .channel i .run => inferInstanceAs (Decidable (∀ t ∈ (s.channels i).strand.head?, _))
  | .event _ => isTrue trivial
  | .channel _ (.send _) => isTrue trivial
  | .channel _ (.written _ _) => isTrue trivial
  | .channel _ (.read _ _) => isTrue trivial
  | .channel _ (.connected _ _) => isTrue trivial
  | .channel _ .expire => isTrue trivial

/-- The first message is the introduction, and no other one is. -/
def OpensWith (intro : Introduction) (msgs : List ServerMessage) : Prop :=
  (∀ msg ∈ msgs.head?, msg = .intro intro) ∧ ∀ msg ∈ msgs.tail, msg.isIntro = false

variable {intro : Introduction} {n : ℕ} {c c' : Channel ServerMessage}
  {a : Channel.Action ServerMessage} {msgs msgs' : List ServerMessage}

theorem opensWith_nil (intro : Introduction) : OpensWith intro [] :=
  ⟨fun _ h => (by cases h), List.forall_mem_nil _⟩

theorem opensWith_singleton (intro : Introduction) : OpensWith intro [.intro intro] :=
  ⟨fun _ h => (Option.mem_some_iff.mp h).symm, List.forall_mem_nil _⟩

/-- What opens with the introduction does so cut short. -/
theorem OpensWith.begin (h : OpensWith intro msgs) (hpre : msgs' <+: msgs) :
    OpensWith intro msgs' := by
  obtain ⟨rest, rfl⟩ := hpre
  cases msgs' with
  | nil => exact opensWith_nil intro
  | cons msg msgs' => exact ⟨h.1, fun m hm => h.2 m (List.mem_append_left rest hm)⟩

/-- And it does so with a message that is no introduction appended. -/
theorem OpensWith.append (h : OpensWith intro msgs) (hne : msgs ≠ []) {msg : ServerMessage}
    (hmsg : msg.isIntro = false) : OpensWith intro (msgs ++ [msg]) := by
  cases msgs with
  | nil => exact absurd rfl hne
  | cons first msgs =>
    refine ⟨h.1, fun m hm => ?_⟩
    rcases List.mem_append.mp hm with hm | hm
    · exact h.2 m hm
    · exact List.mem_singleton.mp hm ▸ hmsg

/-- Where a channel is between two attempts, when `n` introductions are due. -/
inductive Stage (intro : Introduction) (n : ℕ) (c : Channel ServerMessage) : Prop
  | connecting (connects : c.connects = [c.attempts]) (due : n = 0) (silent : c.line = [])
      (fresh : c.attempts ∉ c.established)
  | connected (connects : c.connects = []) (due : n = 1) (silent : c.line = [])
  | refused (connects : c.connects = []) (due : n = 0) (fresh : c.attempts ∉ c.established)
  | introduced (connects : c.connects = []) (due : n = 0) (spoken : c.line ≠ [])
      (opens : OpensWith intro c.line)

/-- **The invariant of a channel**, when the handlers of `calls` connects are posted. -/
structure Greeting (intro : Introduction) (calls : ℕ) (c : Channel ServerMessage) : Prop where
  tagged : c.Tagged
  own : ∀ msg, .send msg ∈ c.strand → msg.isIntro = true → msg = .intro intro
  past : ∀ k ∈ c.established, k < c.attempts → OpensWith intro (c.framesOf k)
  stage : Stage intro (calls + c.strand.countP greets) c

/-- Before the first connect there is nothing to greet. -/
theorem greeting_start (intro : Introduction) : Greeting intro 0 Channel.start where
  tagged := Channel.tagged_start
  own := fun _ h => by cases h
  past := List.forall_mem_nil _
  stage := .connecting rfl rfl rfl List.not_mem_nil

/-- Every connection so far opens with the introduction. -/
theorem Greeting.opens {calls : ℕ} (h : Greeting intro calls c) {k : ℕ} (hk : k ∈ c.established) :
    OpensWith intro (c.framesOf k) := by
  -- an older connection is finished, the latest one is a part of the line
  rcases Nat.lt_or_eq_of_le (h.tagged.established k hk) with hlt | rfl
  · exact h.past k hk hlt
  · have hpre : c.framesOf c.attempts <+: c.line := List.prefix_append _ _
    cases h.stage with
    | connecting _ _ silent fresh => exact absurd hk fresh
    | connected _ _ silent => exact (silent ▸ opensWith_nil intro).begin hpre
    | refused _ _ fresh => exact absurd hk fresh
    | introduced _ _ _ opens => exact opens.begin hpre

/-- A step that neither connects nor sends. -/
theorem Stage.keep (h : Stage intro n c) (hconnects : c'.connects = c.connects)
    (hattempts : c'.attempts = c.attempts) (hestablished : c'.established = c.established)
    (hline : c'.line = c.line) : Stage intro n c' := by
  cases h with
  | connecting connects due silent fresh =>
    exact .connecting (by rw [hconnects, hattempts, connects]) due (hline.trans silent)
      (by rw [hattempts, hestablished]; exact fresh)
  | connected connects due silent =>
    exact .connected (hconnects.trans connects) due (hline.trans silent)
  | refused connects due fresh =>
    exact .refused (hconnects.trans connects) due (by rw [hattempts, hestablished]; exact fresh)
  | introduced connects due spoken opens =>
    exact .introduced (hconnects.trans connects) due (hline ▸ spoken) (hline ▸ opens)

/-- The introduction is put into the queue. -/
theorem Stage.introduce (h : Stage intro (n + 1) c) (hconnects : c'.connects = c.connects)
    (hline : c'.line = c.line ++ [.intro intro]) : Stage intro n c' := by
  -- only between the connect and the introduction is one due
  cases h with
  | connected connects due silent =>
    rw [silent] at hline
    refine .introduced (hconnects.trans connects) (Nat.succ.inj due) ?_ ?_
    · rw [hline]
      exact List.cons_ne_nil _ _
    · rw [hline]
      exact opensWith_singleton intro
  | connecting _ due _ _ | refused _ due _ | introduced _ due _ _ =>
    exact absurd due (Nat.succ_ne_zero n)

/-- Another message is put into the queue, when no introduction is due. -/
theorem Stage.say {msg : ServerMessage} (h : Stage intro n c) (hidle : c.connects = [] ∧ n = 0)
    (hmsg : msg.isIntro = false) (hconnects : c'.connects = c.connects)
    (hattempts : c'.attempts = c.attempts) (hestablished : c'.established = c.established)
    (hline : c'.line = c.line ++ [msg]) : Stage intro n c' := by
  cases h with
  | connecting connects _ _ _ =>
    rw [connects] at hidle
    cases hidle.1
  | connected _ due _ => exact absurd (due.symm.trans hidle.2) Nat.one_ne_zero
  | refused connects due fresh =>
    exact .refused (hconnects.trans connects) due (by rw [hattempts, hestablished]; exact fresh)
  | introduced connects due spoken opens =>
    refine .introduced (hconnects.trans connects) due ?_ ?_
    · rw [hline]
      exact fun hnil => spoken (List.append_eq_nil_iff.mp hnil).1
    · rw [hline]
      exact opens.append spoken hmsg

/-- The coordinator calls `send_msg`; an introduction moves from the posted handler to the
strand. -/
theorem Greeting.sendMsg {calls : ℕ} {msg : ServerMessage}
    (h : Greeting intro (calls + if msg.isIntro then 1 else 0) c)
    (hown : msg.isIntro = true → msg = .intro intro) : Greeting intro calls (c.sendMsg msg) where
  tagged := @Channel.Tagged.step _ c _ (.send msg) h.tagged nofun rfl
  own := by
    intro m hm hintro
    rcases List.mem_append.mp hm with hm | hm
    · exact h.own m hm hintro
    · cases List.mem_singleton.mp hm
      exact hown hintro
  past := h.past
  stage := by
    have hcount : calls + (c.sendMsg msg).strand.countP greets =
        (calls + if msg.isIntro then 1 else 0) + c.strand.countP greets := by
      show calls + (c.strand ++ [ChannelTask.send msg]).countP greets = _
      rw [List.countP_append, List.countP_singleton]
      show _ + (_ + if msg.isIntro = true then 1 else 0) = _
      omega
    rw [hcount]
    exact h.stage.keep rfl rfl rfl
      ((Channel.line_step h.tagged .send rfl).trans (List.append_nil _))

/-- Messages are sent one after the other; each introduction among them uses up a call that is due.
-/
theorem Greeting.sendMsgs {calls : ℕ} (h : Greeting intro (calls + msgs.countP (·.isIntro)) c)
    (hown : ∀ msg ∈ msgs, msg.isIntro = true → msg = .intro intro) :
    Greeting intro calls (msgs.foldl Channel.sendMsg c) := by
  -- induction on the messages: each introduction takes one call
  induction msgs generalizing c with
  | nil => exact h
  | cons msg msgs ih =>
    refine ih (Greeting.sendMsg ?_ (hown msg List.mem_cons_self))
      fun m hm => hown m (List.mem_cons_of_mem msg hm)
    rw [List.countP_cons, ← Nat.add_assoc] at h
    exact h

/-- The next task of the strand, and with it the message that it puts into the queue. -/
theorem Greeting.uncons {calls : ℕ} {t : ChannelTask ServerMessage}
    {rest : List (ChannelTask ServerMessage)} (h : Greeting intro calls c)
    (hstrand : c.strand = t :: rest) (ht : greets t = false) :
    Stage intro (calls + rest.countP greets) c := by
  have hstage := h.stage
  rw [hstrand, List.countP_cons_of_neg (by rw [ht]; exact Bool.false_ne_true)] at hstage
  exact hstage

/-- A message is put into the queue. -/
theorem Greeting.queue {calls : ℕ} {msg : ServerMessage}
    {rest : List (ChannelTask ServerMessage)} (h : Greeting intro calls c)
    (hpermits : Permits (calls + c.strand.countP greets) c (.send msg))
    (hstrand : c.strand = .send msg :: rest) (hconnects : c'.connects = c.connects)
    (hattempts : c'.attempts = c.attempts) (hestablished : c'.established = c.established)
    (hline : c'.line = c.line ++ [msg]) : Stage intro (calls + rest.countP greets) c' := by
  -- the introduction that was due, or another message when none is
  cases hmsg : msg.isIntro with
  | true =>
    obtain rfl := h.own msg (hstrand ▸ List.mem_cons_self) hmsg
    have hstage := h.stage
    rw [hstrand, List.countP_cons_of_pos rfl] at hstage
    exact Stage.introduce hstage hconnects hline
  | false =>
    have hidle := hpermits.resolve_left (by rw [hmsg]; exact Bool.false_ne_true)
    rw [hstrand, List.countP_cons_of_neg (by rw [greets, hmsg]; exact Bool.false_ne_true)] at hidle
    exact (h.uncons hstrand hmsg).say hidle hmsg hconnects hattempts hestablished hline

/-- A connect that completes is the latest one, and the only one. -/
theorem Stage.completing {k attempt : ℕ} (h : Stage intro n c)
    (hpending : c.connects[k]? = some attempt) :
    attempt = c.attempts ∧ c.connects.eraseIdx k = [] ∧ n = 0 ∧ c.line = [] ∧
      c.attempts ∉ c.established := by
  cases h with
  | connected connects _ _ | refused connects _ _ | introduced connects _ _ _ =>
    rw [connects] at hpending
    cases hpending
  | connecting connects due silent fresh =>
    rw [connects, List.getElem?_singleton] at hpending
    split at hpending
    · next hzero =>
      obtain rfl := Option.some.inj hpending
      rw [hzero, connects]
      exact ⟨rfl, rfl, due, silent, fresh⟩
    · cases hpending

/-- The handlers that a step of a channel posts. -/
def posts : Channel.Action ServerMessage → ℕ
  | .connected _ .ok => 1
  | _ => 0

/-- A task that is no greeting is posted. -/
theorem countP_post (tasks : List (ChannelTask ServerMessage)) {t : ChannelTask ServerMessage}
    (ht : greets t = false) : (tasks ++ [t]).countP greets = tasks.countP greets := by
  rw [List.countP_append, List.countP_singleton, ht]
  rfl

/-- A reconnect posts no greeting. -/
theorem countP_reconnect (c : Channel ServerMessage) :
    c.reconnect.strand.countP greets = c.strand.countP greets := by
  obtain ⟨tasks, hstrand, htasks⟩ := Channel.reconnect_strand c
  have hnone : tasks.countP greets = 0 := List.countP_eq_zero.mpr fun t ht => by
    rw [htasks t ht]
    exact Bool.false_ne_true
  rw [hstrand, List.countP_append, hnone, Nat.add_zero]

/-- An error. -/
theorem Stage.fail (h : Stage intro n c) : Stage intro n c.fail :=
  h.keep (Channel.reconnect_connects c) (Channel.reconnect_attempts c)
    (Channel.reconnect_established c) (Channel.line_fail c)

/-- **Where a step of a channel leads.** -/
theorem Greeting.stage_step {calls : ℕ} (h : Greeting intro calls c)
    (hpermits : a = .run → ∀ t ∈ c.strand.head?, Permits (calls + c.strand.countP greets) c t)
    (hsend : ∀ msg, a ≠ .send msg) (hmoves : c.Moves a c') :
    Stage intro (calls + posts a + c'.strand.countP greets) c' := by
  have hline := Channel.line_step h.tagged hmoves
  cases hmoves with
  | @send msg => exact absurd rfl (hsend msg)
  | queue strand busy =>
    refine h.queue (hpermits rfl _ ?_) strand rfl rfl rfl ?_
    · rw [strand]
      exact List.head?_cons
    · rw [hline rfl, Channel.queues, strand]
  | begin strand mq =>
    refine h.queue (hpermits rfl _ ?_) strand rfl rfl rfl ?_
    · rw [strand]
      exact List.head?_cons
    · rw [hline rfl, Channel.queues, strand]
  | retire strand | next strand | cancelled strand =>
    refine (h.uncons strand rfl).keep rfl rfl rfl ?_
    rw [hline rfl, Channel.queues, strand]
    exact List.append_nil _
  | @unwritten w rest strand =>
    show Stage intro (calls + (Channel.reconnect _).strand.countP greets) _
    rw [countP_reconnect]
    refine (h.uncons strand rfl).keep (Channel.reconnect_connects _)
      (Channel.reconnect_attempts _) (Channel.reconnect_established _) ?_
    refine (hline (Channel.reconnect_attempts _)).trans ?_
    rw [Channel.queues, strand]
    exact List.append_nil _
  | @renew rest strand =>
    obtain ⟨hconnects, hdue, hlive⟩ := hpermits rfl (.timer .ok) (by rw [strand]; rfl)
    rw [strand, List.countP_cons_of_neg Bool.false_ne_true] at hdue
    refine .connecting ?_ hdue ?_ ?_
    · show c.connects ++ [c.attempts + 1] = [c.attempts + 1]
      rw [hconnects]
      rfl
    · -- nothing has been written on a connection that is yet to come
      show Channel.framesOf _ (c.attempts + 1) ++ (List.drop _ []).map _ = []
      rw [List.drop_nil, List.map_nil, List.append_nil]
      exact Channel.framesOf_eq_nil fun frame hframe =>
        Nat.lt_succ_of_le (h.tagged.frames frame hframe)
    · exact fun hmem => Nat.not_succ_le_self _ (h.tagged.established _ hmem)
  | @written k ec w write =>
    show Stage intro (calls + (c.strand ++ [ChannelTask.written ec w]).countP greets) _
    rw [countP_post _ rfl]
    exact h.stage.keep rfl rfl rfl ((hline rfl).trans (List.append_nil _))
  | read pending => exact h.stage.keep rfl rfl rfl rfl
  | unread pending =>
    show Stage intro (calls + (Channel.reconnect _).strand.countP greets) _
    rw [countP_reconnect]
    exact Stage.fail (h.stage.keep rfl rfl rfl rfl)
  | connected pending =>
    obtain ⟨-, hnone, hdue, hsilent, -⟩ := h.stage.completing pending
    refine .connected hnone ?_ hsilent
    show calls + 1 + c.strand.countP greets = 1
    omega
  | refused pending =>
    obtain ⟨-, hnone, hdue, -, hfresh⟩ := h.stage.completing pending
    show Stage intro (calls + (Channel.reconnect _).strand.countP greets) _
    rw [countP_reconnect]
    exact Stage.fail (.refused hnone hdue hfresh)
  | expire armed =>
    show Stage intro (calls + (c.strand ++ [ChannelTask.timer .ok]).countP greets) _
    rw [countP_post _ rfl]
    exact h.stage.keep rfl rfl rfl ((hline rfl).trans (List.append_nil _))

/-- What `Permits` says of the timer. -/
theorem clearsIdle_of_permits
    (hpermits : a = .run → ∀ t ∈ c.strand.head?, Permits n c t) : Channel.ClearsIdle c a :=
  fun ha hhead => (hpermits ha (.timer .ok) hhead).2.2

/-- A connection that is over was opened by its introduction. -/
theorem Greeting.past_step {calls : ℕ} (h : Greeting intro calls c) (hmoves : c.Moves a c') {k : ℕ}
    (hk : k ∈ c'.established) (hlt : k < c'.attempts) : OpensWith intro (c'.framesOf k) := by
  -- a connection that is made now is the latest one
  have hold : k ∈ c.established := by
    cases hmoves with
    | @connected m attempt pending =>
      rcases List.mem_append.mp hk with hk | hk
      · exact hk
      · obtain ⟨hattempt, -⟩ := h.stage.completing pending
        exact absurd (List.mem_singleton.mp hk ▸ hattempt) hlt.ne
    | unwritten | unread | refused =>
      rw [Channel.fail, Channel.reconnect_established] at hk
      exact hk
    | _ => exact hk
  rcases Nat.lt_or_eq_of_le (h.tagged.established k hold) with hk' | rfl
  · rw [Channel.framesOf_step h.tagged hmoves hk']
    exact h.past k hold hk'
  · cases hmoves with
    | renew strand => exact h.opens hold
    | unwritten | unread | refused =>
      rw [Channel.fail, Channel.reconnect_attempts] at hlt
      exact absurd hlt (Nat.lt_irrefl _)
    | _ => exact absurd hlt (Nat.lt_irrefl _)

/-- **One step of a channel.** -/
theorem Greeting.step {calls : ℕ} (h : Greeting intro calls c)
    (hpermits : a = .run → ∀ t ∈ c.strand.head?, Permits (calls + c.strand.countP greets) c t)
    (hsend : ∀ msg, a ≠ .send msg) (hstep : c.step a = some c') :
    Greeting intro (calls + posts a) c' := by
  have hmoves := Channel.moves_of_step hstep
  have hstage := h.stage_step hpermits hsend hmoves
  refine ⟨h.tagged.step (clearsIdle_of_permits hpermits) hstep, fun msg hmem hintro => ?_,
    fun k hk hlt => h.past_step hmoves hk hlt, hstage⟩
  exact h.own msg (Channel.send_of_moves hmoves hsend hmem) hintro

/-! ## The events of the coordinator -/

/-- The messages for an outgoing channel. -/
def sentTo (i : ℕ) (es : List Effect) : List ServerMessage :=
  es.filterMap fun e => match e with
    | .send (.outgoing j) msg => if j = i then some msg else none
    | _ => none

/-- A channel gets the messages that are sent to it, in order. -/
theorem foldl_transmit (es : List Effect) (channels : ℕ → Channel ServerMessage) (i : ℕ) :
    es.foldl transmit channels i = (sentTo i es).foldl Channel.sendMsg (channels i) := by
  induction es generalizing channels with
  | nil => rfl
  | cons e es ih =>
    rw [List.foldl_cons, ih]
    cases e with
    | reply client msg => rfl
    | report text => rfl
    | send ch msg =>
      cases ch with
      | accepted k => rfl
      | outgoing j =>
        by_cases hj : j = i
        · subst hj
          simp [transmit, sentTo]
        · simp [transmit, sentTo, hj, Function.update_of_ne (Ne.symm hj)]

variable {codecs : Coordinator.Codecs} {p p' : Coordinator} {ev : Coordinator.Event}
  {es : List Effect}

/-- None of the messages is an introduction. -/
def Silent (es : List Effect) : Prop := ∀ ch msg, .send ch msg ∈ es → msg.isIntro = false

theorem silent_nil : Silent [] := fun _ _ h => by cases h

theorem silent_singleton {ch : Chan} {msg : ServerMessage} (hmsg : msg.isIntro = false) :
    Silent [.send ch msg] := by
  intro ch' msg' h
  cases List.mem_singleton.mp h
  exact hmsg

/-- A broadcast of another message introduces nobody. -/
theorem silent_broadcast (p : Coordinator) {msg : ServerMessage} (hmsg : msg.isIntro = false) :
    Silent (p.broadcast msg) := by
  intro ch msg' h
  obtain ⟨i, -, heq⟩ := List.mem_map.mp h
  cases heq
  exact hmsg

theorem Silent.append {es' : List Effect} (h : Silent es) (h' : Silent es') : Silent (es ++ es') :=
  fun ch msg hmem => (List.mem_append.mp hmem).elim (h ch msg) (h' ch msg)

theorem silent_answer {client : Client} {msg : ClientMessage} {p : Prop} [Decidable p] :
    Silent (if p then [.reply client msg] else []) := by
  intro ch msg' h
  split at h
  · cases List.mem_singleton.mp h
  · cases h

/-- The writes of a handoff introduce nobody. -/
theorem silent_handoff (p : Coordinator) (i : ℕ) : Silent (p.handoff i) := by
  intro ch msg h
  unfold Coordinator.handoff at h
  split at h
  · obtain ⟨k, -, hk⟩ := List.mem_filterMap.mp h
    split at hk
    · cases hk
    · obtain ⟨data, -, heq⟩ := Option.map_eq_some_iff.mp hk
      cases heq
      rfl
  · cases h

/-- What a channel gets has been sent on it. -/
theorem mem_sentTo {i : ℕ} {msg : ServerMessage} (h : msg ∈ sentTo i es) :
    .send (.outgoing i) msg ∈ es := by
  obtain ⟨e, he, hmsg⟩ := List.mem_filterMap.mp h
  split at hmsg
  · split at hmsg
    · next hj =>
      cases hmsg
      exact hj ▸ he
    · cases hmsg
  · cases hmsg

/-- A server that is silent sends no introduction. -/
theorem Silent.countP_sentTo (h : Silent es) (i : ℕ) : (sentTo i es).countP (·.isIntro) = 0 := by
  refine List.countP_eq_zero.mpr fun msg hmsg => ?_
  rw [h _ _ (mem_sentTo hmsg)]
  exact Bool.false_ne_true

/-- The posted handlers that are left when one of them has run. -/
theorem count_eraseIdx {posted : List IoTask} {k : ℕ} {t : IoTask} (htask : posted[k]? = some t)
    (u : IoTask) :
    (posted.eraseIdx k).count u + (if t = u then 1 else 0) = posted.count u := by
  obtain ⟨hlt, rfl⟩ := List.getElem?_eq_some_iff.mp htask
  rw [← (List.getElem_cons_eraseIdx_perm hlt).count_eq, List.count_cons]
  simp only [beq_iff_eq]

/-- **What an event does to the introductions.** Only the handler of a connect sends one, on its
own channel and before anything else. -/
theorem introductions_of_acts (h : p.Acts codecs ev p' es) (hne : ∀ i, ev ≠ .connected i) (i : ℕ) :
    p'.posted.count (.reconnected i) + (sentTo i es).countP (·.isIntro) =
        p.posted.count (.reconnected i) ∧
      ∀ msg ∈ sentTo i es, msg.isIntro = true → msg = .intro p.introduction := by
  -- all events but one
  have hother : Silent es → p'.posted.count (.reconnected i) = p.posted.count (.reconnected i) →
      p'.posted.count (.reconnected i) + (sentTo i es).countP (·.isIntro) =
          p.posted.count (.reconnected i) ∧
        ∀ msg ∈ sentTo i es, msg.isIntro = true → msg = .intro p.introduction := by
    intro hsilent hposted
    refine ⟨by rw [hsilent.countP_sentTo, hposted, Nat.add_zero], fun msg hmsg hintro => ?_⟩
    rw [hsilent _ _ (mem_sentTo hmsg)] at hintro
    cases hintro
  have hrepair : ∀ key, (p.posted ++ p.repairTasks key).count (.reconnected i) =
      p.posted.count (.reconnected i) := by
    intro key
    rw [List.count_append, Coordinator.repairTasks]
    split <;> rfl
  cases h with
  | @getOwn requestor msg =>
    exact hother (fun ch msg' h => by cases List.mem_singleton.mp h) (hrepair msg.key)
  | @getMany requestor msg => exact hother silent_nil (hrepair msg.key)
  | put | introduce | writeComplete | readComplete | repairSame | runLog | runHint | completeRead =>
    exact hother silent_nil rfl
  | badRequest | badMessage | answerRead =>
    exact hother (fun ch msg' h => by cases List.mem_singleton.mp h) rfl
  | doWrite =>
    refine hother (fun ch msg' h => ?_) rfl
    split at h
    · cases h
    · cases List.mem_singleton.mp h
      rfl
  | doRead | readRepair | repairOlder => exact hother (silent_singleton rfl) rfl
  | repairNewer => exact hother (silent_broadcast p rfl) rfl
  | @connected j => exact absurd rfl (hne j)
  | startWrite => exact hother (silent_answer.append (silent_broadcast p rfl)) rfl
  | completeWrite => exact hother silent_answer rfl
  | startRead => exact hother (silent_broadcast p rfl) rfl
  | repair task =>
    exact hother (silent_broadcast p rfl) (count_eraseIdx task (.reconnected i))
  | @reconnected k j task bound =>
    have hcount := count_eraseIdx task (.reconnected i)
    by_cases hj : j = i
    · subst hj
      have hsent : sentTo j (.send (.outgoing j) (.intro p.introduction) :: p.handoff j) =
          .intro p.introduction :: sentTo j (p.handoff j) := by simp [sentTo]
      rw [hsent]
      refine ⟨?_, fun msg hmsg hintro => ?_⟩
      · rw [List.countP_cons_of_pos rfl, (silent_handoff p j).countP_sentTo]
        rw [if_pos rfl] at hcount
        exact hcount
      · rcases List.mem_cons.mp hmsg with hmsg | hmsg
        · exact hmsg
        · rw [silent_handoff p j _ _ (mem_sentTo hmsg)] at hintro
          cases hintro
    · have hsent : sentTo i (.send (.outgoing j) (.intro p.introduction) :: p.handoff j) =
          sentTo i (p.handoff j) := by simp [sentTo, hj]
      rw [hsent]
      refine ⟨?_, fun msg hmsg hintro => ?_⟩
      · rw [(silent_handoff p j).countP_sentTo]
        rw [if_neg (fun heq => hj (IoTask.reconnected.inj heq))] at hcount
        exact hcount
      · rw [silent_handoff p j _ _ (mem_sentTo hmsg)] at hintro
        cases hintro

/-! ## Runs -/

variable {s s' : Server} {act : Action}

/-- The two kinds of steps. -/
theorem step_cases (h : s.step codecs act = some s') :
    (∃ ev p es, act = .event ev ∧ (∀ i, ev ≠ .connected i) ∧
      s.coordinator.handle codecs ev = some (p, es) ∧ s' = ⟨p, es.foldl transmit s.channels⟩) ∨
    (∃ i a c, act = .channel i a ∧ (∀ msg, a ≠ .send msg) ∧ (s.channels i).step a = some c ∧
      s' = ⟨announce s.coordinator i a, Function.update s.channels i c⟩) := by
  cases act with
  | event ev =>
    refine Or.inl ?_
    cases ev with
    | connected i => cases h
    | _ =>
      obtain ⟨⟨p, es⟩, hhandle, heq⟩ := Option.map_eq_some_iff.mp h
      exact ⟨_, p, es, rfl, nofun, hhandle, heq.symm⟩
  | channel i a =>
    refine Or.inr ?_
    cases a with
    | send msg => cases h
    | _ =>
      simp only [step] at h
      split at h
      · obtain ⟨c, hstep, heq⟩ := Option.map_eq_some_iff.mp h
        exact ⟨i, _, c, rfl, nofun, hstep, heq.symm⟩
      · cases h

/-- A connect that succeeds posts its own handler and no other. -/
theorem count_announce (p : Coordinator) (i j : ℕ) (a : Channel.Action ServerMessage) :
    (announce p i a).posted.count (.reconnected j) =
      p.posted.count (.reconnected j) + if i = j then posts a else 0 := by
  have hnone : p.posted.count (.reconnected j) =
      p.posted.count (.reconnected j) + if i = j then 0 else 0 := by
    rw [ite_self, Nat.add_zero]
  unfold announce posts
  split
  · rw [List.count_append, List.count_singleton]
    simp only [beq_iff_eq, IoTask.reconnected.injEq]
  · exact hnone

theorem announce_config (p : Coordinator) (i : ℕ) (a : Channel.Action ServerMessage) :
    (announce p i a).config = p.config := by
  unfold announce
  split <;> rfl

/-- **The invariant of a server.** -/
structure Introduces (config : Config) (s : Server) : Prop where
  config : s.coordinator.config = config
  channels : ∀ i, Greeting s.coordinator.introduction
    (s.coordinator.posted.count (.reconnected i)) (s.channels i)

theorem introduces_start (config : Config) (file hintFile : List UInt8) :
    Introduces config (start config file hintFile) where
  config := rfl
  channels := fun _ => greeting_start _

/-- The introduction is the address of the configuration. -/
theorem introduction_eq (h : p'.config = p.config) : p'.introduction = p.introduction := by
  rw [Coordinator.introduction, h]
  rfl

/-- **One step.** -/
theorem Introduces.step {config : Config} (h : Introduces config s) (hwaits : Waits s act)
    (hstep : s.step codecs act = some s') : Introduces config s' := by
  -- an event sends on some channels; a step of one channel may post a handler
  rcases step_cases hstep with ⟨ev, p, es, rfl, hne, hhandle, rfl⟩ |
    ⟨i, a, c, rfl, hsend, hchannel, rfl⟩
  · have hacts := Coordinator.acts_of_handle hhandle
    refine ⟨hacts.config.trans h.config, fun i => ?_⟩
    obtain ⟨hcount, hown⟩ := introductions_of_acts hacts hne i
    show Greeting p.introduction _ (es.foldl transmit s.channels i)
    rw [introduction_eq hacts.config, foldl_transmit]
    refine Greeting.sendMsgs ?_ hown
    rw [hcount]
    exact h.channels i
  · refine ⟨(announce_config _ i a).trans h.config, fun j => ?_⟩
    show Greeting (announce s.coordinator i a).introduction _ (Function.update s.channels i c j)
    rw [introduction_eq (announce_config s.coordinator i a), count_announce]
    by_cases hj : i = j
    · subst hj
      rw [Function.update_self, if_pos rfl]
      refine (h.channels i).step (fun ha => ?_) hsend hchannel
      subst ha
      exact hwaits
    · rw [Function.update_of_ne (Ne.symm hj), if_neg hj]
      exact h.channels j

/-! ## The server at the other end -/

/-- The messages that arrive on an accepted channel. -/
def heard (j : ℕ) (evs : List Coordinator.Event) : List ServerMessage :=
  evs.filterMap fun ev => match ev with
    | .server (.accepted k) msg => if k = j then some msg else none
    | _ => none

/-- An accepted channel is introduced by the first message on it. -/
theorem introduced_step {j : ℕ} (h : p.step codecs ev = some p') :
    p'.config = p.config ∧
      (p'.introduced j = none ↔ p.introduced j = none ∧ heard j [ev] = []) := by
  obtain ⟨⟨p₁, es⟩, hhandle, rfl⟩ := Option.map_eq_some_iff.mp h
  have hacts := Coordinator.acts_of_handle hhandle
  refine ⟨hacts.config, ?_⟩
  -- a message from a server that is known
  have hknown : ∀ {source msg id}, p.idOf source = some id →
      (p.introduced j = none ↔ p.introduced j = none ∧ heard j [.server source msg] = []) := by
    intro source msg id hid
    cases source with
    | outgoing i => exact (and_iff_left rfl).symm
    | accepted k =>
      by_cases hk : k = j
      · subst hk
        have hsome : p.introduced k = some id := hid
        rw [hsome]
        exact iff_of_false nofun fun hnone => by cases hnone.1
      · rw [show heard j [.server (.accepted k) msg] = [] by simp [heard, hk]]
        exact (and_iff_left rfl).symm
  cases hacts with
  | @introduce k intro id unknown found =>
    show Function.update p.introduced k (some id) j = none ↔ _
    by_cases hk : k = j
    · subst hk
      rw [Function.update_self]
      exact iff_of_false nofun fun hnone => by simp [heard] at hnone
    · rw [Function.update_of_ne (Ne.symm hk),
        show heard j [.server (.accepted k) (.intro intro)] = [] by simp [heard, hk]]
      exact (and_iff_left rfl).symm
  | doWrite sender | writeComplete sender | doRead sender | readComplete sender | readRepair sender
  | repairNewer sender | repairOlder sender | repairSame sender | badMessage sender =>
    exact hknown sender
  | _ => exact (and_iff_left rfl).symm

/-- A server knows who is at a channel once it has heard a message there. -/
theorem introduced_exec {j : ℕ} {evs : List Coordinator.Event}
    (h : exec (Coordinator.step codecs) p evs = some p') :
    p'.config = p.config ∧ (p'.introduced j = none ↔ p.introduced j = none ∧ heard j evs = []) := by
  induction evs generalizing p with
  | nil =>
    cases h
    exact ⟨rfl, (and_iff_left rfl).symm⟩
  | cons ev evs ih =>
    obtain ⟨p₁, hstep, hrest⟩ := exec_cons.mp h
    obtain ⟨hconfig, hnone⟩ := @introduced_step _ _ _ _ j hstep
    obtain ⟨hconfig', hnone'⟩ := ih hrest
    refine ⟨hconfig'.trans hconfig, ?_⟩
    rw [hnone', hnone, and_assoc]
    -- what is heard is heard event by event
    have happend : heard j (ev :: evs) = heard j [ev] ++ heard j evs :=
      List.filterMap_append (l := [ev])
    rw [happend, List.append_eq_nil_iff]

/-- No exception is thrown; a key that is too large is none. -/
def Calm {α : Type} (x : Except Fault α) : Prop := ∀ what, x ≠ .error (.runtimeError what)

theorem calm_ok {α : Type} (a : α) : Calm (.ok a) := nofun

/-- Two computations that throw no exception throw none together. -/
theorem Calm.bind {α β : Type} {x : Except Fault α} {f : α → Except Fault β} (hx : Calm x)
    (hf : ∀ a, Calm (f a)) : Calm (x >>= f) := by
  cases x with
  | ok a => exact hf a
  | error e => exact fun what h => hx what (congrArg _ (Except.error.inj h))

/-- A read may index out of bounds, but throws nothing. -/
theorem calm_read (r : Replica) (key : UInt32) : Calm (r.read key) := by
  unfold Replica.read
  split
  · exact calm_ok _
  · exact fun _ h => by cases h

/-- So may a write. -/
theorem calm_write (r : Replica) (key : UInt32) (data : String) (stamp : Timestamp) :
    Calm (r.write key data stamp) := by
  refine (calm_read r key).bind fun current => ?_
  show Calm (if _ then _ else _)
  split
  · exact calm_ok _
  · exact calm_ok _

theorem calm_handleDoWrite (p : Coordinator) (msg : DoWrite) (sender : ℕ) :
    Calm (p.handleDoWrite msg sender) := by
  refine (calm_write p.replica _ _ _).bind fun replica => ?_
  show Calm (if _ then _ else _)
  split
  · split
    · exact calm_ok _
    · exact fun _ h => by cases h
  · exact calm_ok _

theorem calm_handleReadRepairResponse (p : Coordinator) (msg : ReadRepairResponse) (source : Chan) :
    Calm (p.handleReadRepairResponse msg source) := by
  have hnewer := (calm_write p.replica msg.key msg.val msg.timestamp).bind fun replica =>
    calm_ok (({ p with replica := replica } : Coordinator),
      p.broadcast (.doWrite ⟨"RR", msg.key, msg.timestamp, msg.val⟩))
  refine (calm_read p.replica msg.key).bind fun held => ?_
  cases held with
  | none => exact hnewer
  | some copy =>
    show Calm (if _ then _ else _)
    split
    · exact hnewer
    · split
      · exact calm_ok _
      · exact calm_ok _

/-- The handlers of a known server throw on an introduction only. -/
theorem calm_serverMsgHandler {msg : ServerMessage} (hmsg : msg.isIntro = false) (source : Chan)
    (id : ℕ) : Calm (p.serverMsgHandler msg source id) := by
  cases msg with
  | intro msg => cases hmsg
  | doWrite msg => exact calm_handleDoWrite p msg id
  | doRead msg => exact (calm_read _ _).bind fun held => calm_ok _
  | readRepair msg => exact (calm_read _ _).bind fun held => calm_ok _
  | readRepairResponse msg => exact calm_handleReadRepairResponse p msg source
  | writeComplete msg => exact calm_ok _
  | readComplete msg => exact calm_ok _
  | notSet => exact calm_ok _

/-- **A peer that hears the introduction first.** Its handlers throw only if it does not know the
address. -/
theorem OpensWith.heard {j : ℕ} {evs : List Coordinator.Event} {msg : ServerMessage}
    {what : String} (hopens : OpensWith intro msgs) (hnew : p.introduced j = none)
    (hrun : exec (Coordinator.step codecs) p evs = some p')
    (hheard : Server.heard j evs ++ [msg] <+: msgs)
    (hthrow : p'.channelHandler msg (.accepted j) = .error (.runtimeError what)) :
    (intro.ip, toString intro.port.toNat) ∉ p.config.replicas := by
  obtain ⟨hconfig, hnone⟩ := @introduced_exec _ _ _ j _ hrun
  have hopens' := hopens.begin hheard
  simp only [Coordinator.channelHandler] at hthrow
  cases hid : p'.introduced j with
  | none =>
    -- this is the first message
    obtain ⟨-, hfirst⟩ := hnone.mp hid
    rw [hfirst] at hopens'
    obtain rfl := hopens'.1 msg rfl
    simp only [hid, Coordinator.unintroducedMsgHandler] at hthrow
    split at hthrow
    · cases hthrow
    · next hfind =>
      rw [hconfig] at hfind
      intro hmem
      have := List.findIdx?_eq_none_iff.mp hfind _ hmem
      simp at this
  | some id =>
    have hlater : Server.heard j evs ≠ [] := by
      intro hnil
      rw [hnone.mpr ⟨hnew, hnil⟩] at hid
      cases hid
    have hmsg : msg.isIntro = false := by
      refine hopens'.2 msg ?_
      rw [List.tail_append_of_ne_nil hlater]
      exact List.mem_append_right _ List.mem_cons_self
    simp only [hid] at hthrow
    exact absurd hthrow (calm_serverMsgHandler hmsg _ _ what)

/-- **The introduction comes first on every connection**, in every run in which no other message
is sent and no reconnect begins while one is due; so a peer that knows the address throws
nothing. -/
theorem introduction_first {config : Config} {file hintFile : List UInt8} {as : List Action}
    (hwaits : Along (step codecs) Waits (start config file hintFile) as)
    (hrun : exec (step codecs) (start config file hintFile) as = some s) (i : ℕ) {k : ℕ}
    (hk : k ∈ (s.channels i).established) :
    OpensWith ⟨config.listenIp, config.listenPort.toUInt32⟩ ((s.channels i).framesOf k) ∧
    ∀ (peerCodecs : Coordinator.Codecs) (peer peer' : Coordinator) (j : ℕ)
      (evs : List Coordinator.Event) (msg : ServerMessage) (what : String),
      peer.introduced j = none → exec (Coordinator.step peerCodecs) peer evs = some peer' →
      heard j evs ++ [msg] <+: (s.channels i).framesOf k →
      peer'.channelHandler msg (.accepted j) = .error (.runtimeError what) →
      (config.listenIp, toString config.listenPort.toNat) ∉ peer.config.replicas := by
  have hintroduces : Introduces config s := exec_inv_along
    (fun _ _ _ hinv hwaits hstep => hinv.step hwaits hstep) (introduces_start config file hintFile)
    hwaits hrun
  -- the invariant at the end of the run
  have hopens : OpensWith ⟨config.listenIp, config.listenPort.toUInt32⟩
      ((s.channels i).framesOf k) := by
    rw [← hintroduces.config]
    exact (hintroduces.channels i).opens hk
  refine ⟨hopens, fun peerCodecs peer peer' j evs msg what hnew hpeer hheard hthrow => ?_⟩
  have haddress := hopens.heard hnew hpeer hheard hthrow
  rw [UInt16.toNat_toUInt32] at haddress
  exact haddress

/-! ## A write before the introduction -/

/-- A server with one replica. -/
def oneReplica : Config := ⟨"10.0.0.1", 9001, [("10.0.0.2", "9002")], .readRepair⟩

/-- Its replica. -/
def otherServer : Coordinator :=
  .create ⟨"10.0.0.2", 9002, [("10.0.0.1", "9001")], .readRepair⟩ [] []

noncomputable def oneReplicaCodecs : Coordinator.Codecs := ⟨firstCodec, hintProto⟩

/-- A put and the task that sends its DoWrite. -/
def onePut : List Action :=
  [.event (.client 0 (.putKey ⟨7, 5, "v", 1⟩) ⟨100, 0⟩ "u"), .event .runWrite]

/-- The connect succeeds, the introduction is written, and then the DoWrite of a put. -/
def introducedPut : List Action :=
  [.channel 0 (.connected 0 .ok), .event (.runPosted 0), .channel 0 .run,
    .channel 0 (.written 0 .ok), .channel 0 .run] ++ onePut ++
    [.channel 0 .run, .channel 0 (.written 0 .ok)]

/-- A put sends its DoWrite after the introduction has been written. -/
theorem introduction_first_lone : ∃ s,
    exec (step oneReplicaCodecs) (start oneReplica [] []) introducedPut = some s ∧
    (s.channels 0).framesOf 1 =
      [.intro ⟨"10.0.0.1", 9001⟩, .doWrite ⟨"u", 5, ⟨100, 0⟩, "v"⟩] ∧
    OpensWith ⟨"10.0.0.1", 9001⟩ ((s.channels 0).framesOf 1) := by
  have hend : (exec (step oneReplicaCodecs) (start oneReplica [] []) introducedPut).any (fun s =>
      1 ∈ (s.channels 0).established ∧ (s.channels 0).framesOf 1 =
        [.intro ⟨"10.0.0.1", 9001⟩, .doWrite ⟨"u", 5, ⟨100, 0⟩, "v"⟩]) = true := by
    decide +kernel
  obtain ⟨s, hrun, hs⟩ := (Option.any_eq_true _ _).mp hend
  obtain ⟨hestablished, hframes⟩ := of_decide_eq_true hs
  have hwaits : Along (step oneReplicaCodecs) Waits (start oneReplica [] []) introducedPut := by
    decide +kernel
  exact ⟨s, hrun, hframes, (introduction_first hwaits hrun 0 hestablished).1⟩

/-- The put comes first: its DoWrite is queued before the connect succeeds, and the task that
sends it runs before the handler of the connect. -/
def unintroducedPut : List Action :=
  onePut ++ [.channel 0 (.connected 0 .ok), .channel 0 .run, .channel 0 (.written 0 .ok)]

/-- **The first frame of a connection is a DoWrite**, and its receiver throws. -/
theorem write_before_introduction : ∃ s,
    exec (step oneReplicaCodecs) (start oneReplica [] []) unintroducedPut = some s ∧
    1 ∈ (s.channels 0).established ∧
    ¬ OpensWith ⟨"10.0.0.1", 9001⟩ ((s.channels 0).framesOf 1) ∧
    ∃ msg, (s.channels 0).framesOf 1 = [msg] ∧ otherServer.channelHandler msg (.accepted 0) =
      .error (.runtimeError "Replica failed to introduce self") := by
  have hend : (exec (step oneReplicaCodecs) (start oneReplica [] []) unintroducedPut).any (fun s =>
      1 ∈ (s.channels 0).established ∧
      (s.channels 0).framesOf 1 = [.doWrite ⟨"u", 5, ⟨100, 0⟩, "v"⟩]) = true := by
    decide +kernel
  obtain ⟨s, hrun, hs⟩ := (Option.any_eq_true _ _).mp hend
  obtain ⟨hestablished, hframes⟩ := of_decide_eq_true hs
  refine ⟨s, hrun, hestablished, fun hopens => ?_, _, hframes, rfl⟩
  rw [hframes] at hopens
  cases hopens.1 _ rfl

end Server

end Cs457.Kv
