import Cs457.Lib.Transition
import Mathlib.Data.List.Perm.Basic
import Mathlib.Order.Lattice

/-!
# Key-value store — a channel

`Channel` with its outgoing queue `m_mq`, the operations it has outstanding and the reconnect
timer. A call of `send_msg`, the completion of a write and the expiry of the timer queue a task
in the strand; the completions of reads and connects are handled at once. An operation that is
outstanding may complete with or without an error at any time.

* **`step`** — the calls of `send_msg`, the completions, the next task of the strand.
* **`moves_of_step`** — every step is of one of the kinds of `Moves`.
* **`Orderly.step`** — while no timer clears the queue under a write, the one write there is is
  of the front of the queue.
* **`Usable.step`** — while no error is handled during a reconnect, a connection that is up has
  no timer and no message without a write.
-/

namespace Cs457.Kv

open Transition

/-- `error_code`. -/
inductive Ec where
  | ok
  | failed
  deriving DecidableEq, Repr

/-- An element of `m_mq`: a buffer, told apart from all others by its number. -/
structure Buffer (M : Type) where
  number : ℕ
  msg : M
  deriving DecidableEq, Repr

/-- An `async_write`: the buffer it was started for, and the attempt to connect, counted from
1, to whose socket it belongs. -/
structure Write (M : Type) where
  buffer : Buffer M
  attempt : ℕ
  deriving DecidableEq, Repr

/-- The tasks of `m_strand`. -/
inductive ChannelTask (M : Type) where
  | send (msg : M)
  | written (ec : Ec) (w : Write M)
  | timer (ec : Ec)
  deriving DecidableEq, Repr

/-- An `async_read`. -/
inductive ReadOp where
  | header
  | body
  deriving DecidableEq, Repr

/-- `queued` numbers the buffers, `attempts` the connects; `established`, `frames` and `healthy`
are history: the attempts that have succeeded, the messages written without error with the
attempt they belong to, and whether the latest attempt has succeeded and no error has been
reported since. -/
structure Channel (M : Type) where
  active : Bool
  strand : List (ChannelTask M) := []
  mq : List (Buffer M) := []
  queued : ℕ := 0
  writes : List (Write M) := []
  reads : List ReadOp := []
  attempts : ℕ := 0
  connects : List ℕ := []
  armed : Bool := false
  established : List ℕ := []
  frames : List (ℕ × M) := []
  healthy : Bool := false
  deriving DecidableEq, Repr

namespace Channel

variable {M : Type}

def sendMsg (c : Channel M) (msg : M) : Channel M := { c with strand := c.strand ++ [.send msg] }

def connectCb (c : Channel M) : Channel M :=
  { c with
    attempts := c.attempts + 1
    connects := c.connects ++ [c.attempts + 1]
    healthy := false }

/-- Constructed as active and told to connect. -/
def start : Channel M := connectCb { active := true }

/-- `expires_from_now` cancels a wait that is under way, whose handler then gets an error. -/
def reconnect (c : Channel M) : Channel M :=
  if c.active then
    { c with
      strand := c.strand ++ if c.armed then [.timer .failed] else []
      armed := true }
  else c

/-- The handler of an operation that failed. -/
def fail (c : Channel M) : Channel M := { c.reconnect with healthy := false }

/-- `do_send`; `front()` of an empty queue is undefined. -/
def doSend (c : Channel M) : Option (Channel M) :=
  match c.mq with
  | [] => none
  | buffer :: _ => some { c with writes := c.writes ++ [⟨buffer, c.attempts⟩] }

/-- What a task of the strand does. -/
def perform (c : Channel M) : ChannelTask M → Option (Channel M)
  | .send msg =>
    let empty := c.mq.isEmpty
    let c := { c with mq := c.mq ++ [⟨c.queued, msg⟩], queued := c.queued + 1 }
    -- a queue that is not empty has a write under way
    if empty then c.doSend else some c
  | .written .ok _ =>
    match c.mq with
    -- `pop_front()` of an empty queue is undefined
    | [] => none
    | _ :: mq =>
      let c := { c with mq := mq }
      if mq.isEmpty then some c else c.doSend
  | .written .failed _ => some c.fail
  -- `m_mq.clear()` and a new connect
  | .timer .ok => some { c with mq := [] }.connectCb
  -- the wait was cancelled: only a message on stderr
  | .timer .failed => some c

def runTask (c : Channel M) : Option (Channel M) :=
  match c.strand with
  | [] => none
  | t :: rest => { c with strand := rest }.perform t

/-- `do_read_header` and `do_read_message`. -/
def readNext : ReadOp → ReadOp
  | .header => .body
  | .body => .header

inductive Action (M : Type) where
  /-- a call of `send_msg` -/
  | send (msg : M)
  /-- the next task of the strand -/
  | run
  | written (n : ℕ) (ec : Ec)
  | read (n : ℕ) (ec : Ec)
  | connected (n : ℕ) (ec : Ec)
  /-- the timer expires -/
  | expire
  deriving DecidableEq, Repr

def step (c : Channel M) : Action M → Option (Channel M)
  | .send msg => some (c.sendMsg msg)
  | .run => c.runTask
  | .written n ec =>
    match c.writes[n]? with
    | none => none
    | some w => some { c with
        writes := c.writes.eraseIdx n
        strand := c.strand ++ [.written ec w]
        -- the bytes are on the wire when the operation ends without an error
        frames := c.frames ++ if ec = .ok then [(w.attempt, w.buffer.msg)] else [] }
  | .read n ec =>
    match c.reads[n]? with
    | none => none
    | some op =>
      let c := { c with reads := c.reads.eraseIdx n }
      match ec with
      -- a header is followed by its body, a body by the next header
      | .ok => some { c with reads := c.reads ++ [readNext op] }
      | .failed => some c.fail
  | .connected n ec =>
    match c.connects[n]? with
    | none => none
    | some attempt =>
      let c := { c with connects := c.connects.eraseIdx n }
      match ec with
      -- the handler is posted and `start` reads the first header
      | .ok => some { c with
          reads := c.reads ++ [.header]
          established := c.established ++ [attempt]
          healthy := c.healthy || attempt = c.attempts }
      | .failed => some c.fail
  | .expire =>
    if c.armed then some { c with armed := false, strand := c.strand ++ [.timer .ok] } else none

/-! ## What a step does -/

variable {c c' : Channel M}

/-- **The kinds of steps**, each with the whole channel after it. -/
inductive Moves (c : Channel M) : Action M → Channel M → Prop
  | send {msg} : Moves c (.send msg) (c.sendMsg msg)
  | queue {msg rest} (strand : c.strand = .send msg :: rest) (busy : c.mq ≠ []) :
      Moves c .run { c with
        strand := rest, mq := c.mq ++ [⟨c.queued, msg⟩], queued := c.queued + 1 }
  | begin {msg rest} (strand : c.strand = .send msg :: rest) (mq : c.mq = []) :
      Moves c .run { c with
        strand := rest
        mq := [⟨c.queued, msg⟩]
        queued := c.queued + 1
        writes := c.writes ++ [⟨⟨c.queued, msg⟩, c.attempts⟩] }
  | retire {w rest buffer} (strand : c.strand = .written .ok w :: rest) (mq : c.mq = [buffer]) :
      Moves c .run { c with strand := rest, mq := [] }
  | next {w rest buffer front tail} (strand : c.strand = .written .ok w :: rest)
      (mq : c.mq = buffer :: front :: tail) :
      Moves c .run { c with
        strand := rest, mq := front :: tail, writes := c.writes ++ [⟨front, c.attempts⟩] }
  | unwritten {w rest} (strand : c.strand = .written .failed w :: rest) :
      Moves c .run { c with strand := rest }.fail
  | renew {rest} (strand : c.strand = .timer .ok :: rest) :
      Moves c .run { c with strand := rest, mq := [] }.connectCb
  | cancelled {rest} (strand : c.strand = .timer .failed :: rest) :
      Moves c .run { c with strand := rest }
  | written {n ec w} (write : c.writes[n]? = some w) :
      Moves c (.written n ec) { c with
        writes := c.writes.eraseIdx n
        strand := c.strand ++ [.written ec w]
        frames := c.frames ++ if ec = .ok then [(w.attempt, w.buffer.msg)] else [] }
  | read {n op} (pending : c.reads[n]? = some op) :
      Moves c (.read n .ok) { c with reads := c.reads.eraseIdx n ++ [readNext op] }
  | unread {n op} (pending : c.reads[n]? = some op) :
      Moves c (.read n .failed) { c with reads := c.reads.eraseIdx n }.fail
  | connected {n attempt} (pending : c.connects[n]? = some attempt) :
      Moves c (.connected n .ok) { c with
        connects := c.connects.eraseIdx n
        reads := c.reads ++ [.header]
        established := c.established ++ [attempt]
        healthy := c.healthy || attempt = c.attempts }
  | refused {n attempt} (pending : c.connects[n]? = some attempt) :
      Moves c (.connected n .failed) { c with connects := c.connects.eraseIdx n }.fail
  | expire (armed : c.armed = true) :
      Moves c .expire { c with armed := false, strand := c.strand ++ [.timer .ok] }

/-- The next task of the strand. -/
theorem moves_of_runTask (h : c.runTask = some c') : Moves c .run c' := by
  unfold runTask at h
  split at h
  · cases h
  · next t rest hstrand =>
    -- one kind for each task and each length of the queue that matters
    cases t with
    | send msg =>
      simp only [perform] at h
      split at h
      · next hempty =>
        have hmq : c.mq = [] := List.isEmpty_iff.mp hempty
        simp only [doSend, hmq, List.nil_append] at h
        cases h
        exact .begin hstrand hmq
      · next hbusy =>
        cases h
        exact .queue hstrand fun hmq => hbusy (List.isEmpty_iff.mpr hmq)
    | written ec w =>
      cases ec with
      | ok =>
        simp only [perform] at h
        split at h
        · cases h
        · next buffer mq hmq =>
          cases mq with
          | nil =>
            cases h
            exact .retire hstrand hmq
          | cons front mq =>
            cases h
            exact .next hstrand hmq
      | failed =>
        cases h
        exact .unwritten hstrand
    | timer ec =>
      cases ec with
      | ok =>
        cases h
        exact .renew hstrand
      | failed =>
        cases h
        exact .cancelled hstrand

/-- **Every step is of one of the kinds.** -/
theorem moves_of_step {a : Action M} (h : c.step a = some c') : Moves c a c' := by
  cases a with
  | send msg =>
    cases h
    exact .send
  | run => exact moves_of_runTask h
  | written n ec =>
    simp only [step] at h
    split at h
    · cases h
    · next w hw =>
      cases h
      exact .written hw
  | read n ec =>
    simp only [step] at h
    split at h
    · cases h
    · next op hop =>
      -- A read that fails gives the connection up; the next header or body is not read then.
      cases ec with
      | ok =>
        cases h
        exact .read hop
      | failed =>
        cases h
        exact .unread hop
  | connected n ec =>
    simp only [step] at h
    split at h
    · cases h
    · next attempt hattempt =>
      cases ec with
      | ok =>
        cases h
        exact .connected hattempt
      | failed =>
        cases h
        exact .refused hattempt
  | expire =>
    simp only [step] at h
    split at h
    · next harmed =>
      cases h
      exact .expire harmed
    · cases h

/-! ## What a step changes -/

/-- The writes that have completed without error and whose handler has not run. -/
def okWritten : List (ChannelTask M) → List (Write M)
  | [] => []
  | .written .ok w :: tasks => w :: okWritten tasks
  | _ :: tasks => okWritten tasks

@[simp] theorem okWritten_append (as bs : List (ChannelTask M)) :
    okWritten (as ++ bs) = okWritten as ++ okWritten bs := by
  induction as with
  | nil => rfl
  | cons a as ih =>
    cases a with
    | send msg => exact ih
    | timer ec => exact ih
    | written ec w =>
      cases ec with
      | ok => exact congrArg (w :: ·) ih
      | failed => exact ih

@[simp] theorem reconnect_mq (c : Channel M) : c.reconnect.mq = c.mq := by
  unfold reconnect
  split <;> rfl

@[simp] theorem reconnect_writes (c : Channel M) : c.reconnect.writes = c.writes := by
  unfold reconnect
  split <;> rfl

@[simp] theorem reconnect_connects (c : Channel M) : c.reconnect.connects = c.connects := by
  unfold reconnect
  split <;> rfl

/-- A reconnect posts nothing but the handler of the wait that it cancels. -/
theorem reconnect_strand (c : Channel M) :
    ∃ tasks, c.reconnect.strand = c.strand ++ tasks ∧ ∀ t ∈ tasks, t = .timer .failed := by
  unfold reconnect
  split
  · refine ⟨_, rfl, fun t ht => ?_⟩
    split at ht
    · exact List.mem_singleton.mp ht
    · cases ht
  · exact ⟨[], (List.append_nil _).symm, nofun⟩

/-- Cancelled timers are no writes. -/
theorem okWritten_timers {tasks : List (ChannelTask M)} (h : ∀ t ∈ tasks, t = .timer .failed) :
    okWritten tasks = [] := by
  induction tasks with
  | nil => rfl
  | cons t tasks ih =>
    obtain rfl := h t List.mem_cons_self
    exact ih fun t ht => h t (List.mem_cons_of_mem _ ht)

/-- A reconnect cancels the timers and completes no write. -/
@[simp] theorem okWritten_reconnect (c : Channel M) :
    okWritten c.reconnect.strand = okWritten c.strand := by
  obtain ⟨tasks, hstrand, htasks⟩ := reconnect_strand c
  rw [hstrand, okWritten_append, okWritten_timers htasks, List.append_nil]

/-! ## A completed write retires its message -/

/-- The writes that can still retire a message: outstanding, or completed without error. -/
def live (c : Channel M) : List (Write M) := c.writes ++ okWritten c.strand

/-- At most one write is live, and it was started for the front. -/
def FrontOnly (mq : List (Buffer M)) (live : List (Write M)) : Prop :=
  live.length ≤ 1 ∧ ∀ w ∈ live, mq.head? = some w.buffer

/-- **The invariant of the queue.** -/
def Orderly (c : Channel M) : Prop := FrontOnly c.mq c.live

/-- A write whose completion is handled was started for the front of the queue. -/
def RetiresFront (c : Channel M) (a : Action M) : Prop :=
  a = .run → ∀ w, c.strand.head? = some (.written .ok w) → c.mq.head? = some w.buffer

/-- The handler of the timer does not run under a write. -/
def ClearsIdle (c : Channel M) (a : Action M) : Prop :=
  a = .run → c.strand.head? = some (.timer .ok) → c.live = []

instance [DecidableEq M] (c : Channel M) (a : Action M) : Decidable (ClearsIdle c a) :=
  inferInstanceAs (Decidable (_ → _ → _))

/-- At the start nothing is written. -/
theorem orderly_start : Orderly (start : Channel M) := ⟨Nat.zero_le _, nofun⟩

variable {mq : List (Buffer M)} {ws : List (Write M)}

theorem frontOnly_nil (mq : List (Buffer M)) : FrontOnly mq [] := ⟨Nat.zero_le _, nofun⟩

theorem FrontOnly.eq_nil (h : FrontOnly [] ws) : ws = [] := by
  cases ws with
  | nil => rfl
  | cons w ws => cases h.2 w List.mem_cons_self

/-- The front stays in front when buffers are appended. -/
theorem FrontOnly.append (h : FrontOnly mq ws) (hmq : mq ≠ []) (mq' : List (Buffer M)) :
    FrontOnly (mq ++ mq') ws := by
  refine ⟨h.1, fun w hw => ?_⟩
  rw [List.head?_append_of_ne_nil _ hmq]
  exact h.2 w hw

/-- A write that starts is one of the front. -/
theorem frontOnly_singleton (buffer : Buffer M) (mq : List (Buffer M)) (attempt : ℕ) :
    FrontOnly (buffer :: mq) [⟨buffer, attempt⟩] := by
  refine ⟨Nat.le_refl 1, fun w hw => ?_⟩
  obtain rfl := List.mem_singleton.mp hw
  rfl

/-- A channel that fails keeps its queue. -/
theorem Orderly.fail (h : Orderly c) : Orderly c.fail := by
  show FrontOnly c.reconnect.mq (c.reconnect.writes ++ okWritten c.reconnect.strand)
  rw [reconnect_mq, reconnect_writes, okWritten_reconnect]
  exact h

/-- No write is live while the queue is empty. -/
theorem Orderly.idle (h : Orderly c) (hmq : c.mq = []) :
    c.writes = [] ∧ okWritten c.strand = [] := by
  rw [Orderly, hmq] at h
  exact List.append_eq_nil_iff.mp h.eq_nil

/-- The write whose completion is handled is the only one. -/
theorem Orderly.retiring {w : Write M} {rest : List (ChannelTask M)} (h : Orderly c)
    (hstrand : c.strand = .written .ok w :: rest) : c.writes = [] ∧ okWritten rest = [] := by
  -- the write of the task is live, so nothing else is
  have hlen : (c.writes ++ w :: okWritten rest).length ≤ 1 := by
    have hone := h.1
    rw [live, hstrand] at hone
    exact hone
  rw [List.length_append, List.length_cons] at hlen
  exact ⟨List.eq_nil_of_length_eq_zero (by omega), List.eq_nil_of_length_eq_zero (by omega)⟩

/-- The write that completes is the only one, and of the front. -/
theorem Orderly.completing {n : ℕ} {w : Write M} (h : Orderly c) (hw : c.writes[n]? = some w) :
    c.writes.eraseIdx n = [] ∧ okWritten c.strand = [] ∧ c.mq.head? = some w.buffer := by
  -- the write that completes is live, so nothing else is
  have hlt := (List.getElem?_eq_some_iff.mp hw).1
  have hlen : (c.writes ++ okWritten c.strand).length ≤ 1 := h.1
  rw [List.length_append] at hlen
  refine ⟨List.eq_nil_of_length_eq_zero ?_, List.eq_nil_of_length_eq_zero (by omega), ?_⟩
  · rw [List.length_eraseIdx_of_lt hlt]
    omega
  · exact h.2 w (List.mem_append_left _ (List.mem_of_getElem? hw))

/-- A task that retires nothing is taken from the strand. -/
theorem Orderly.uncons {t : ChannelTask M} {rest : List (ChannelTask M)} (h : Orderly c)
    (hstrand : c.strand = t :: rest) (ht : okWritten (t :: rest) = okWritten rest) :
    FrontOnly c.mq (c.writes ++ okWritten rest) := by
  rw [Orderly, live, hstrand, ht] at h
  exact h

/-- A task that retires nothing is queued. -/
theorem Orderly.post {t : ChannelTask M} (h : Orderly c) (ht : okWritten [t] = []) :
    FrontOnly c.mq (c.writes ++ okWritten (c.strand ++ [t])) := by
  rw [okWritten_append, ht, List.append_nil]
  exact h

/-- **One step.** -/
theorem Orderly.step {a : Action M} (h : Orderly c) (hidle : ClearsIdle c a)
    (hstep : c.step a = some c') : Orderly c' := by
  cases moves_of_step hstep with
  | send => exact h.post rfl
  | queue strand busy => exact (h.uncons strand rfl).append busy _
  | @begin msg rest strand mq =>
    obtain ⟨hwrites, hok⟩ := h.idle mq
    rw [strand] at hok
    show FrontOnly _ (c.writes ++ [_] ++ okWritten rest)
    rw [hwrites, show okWritten rest = [] from hok]
    exact frontOnly_singleton _ _ _
  | @retire w rest buffer strand mq =>
    obtain ⟨hwrites, hok⟩ := h.retiring strand
    show FrontOnly [] (c.writes ++ okWritten rest)
    rw [hwrites, hok]
    exact frontOnly_nil []
  | @next w rest buffer front tail strand mq =>
    obtain ⟨hwrites, hok⟩ := h.retiring strand
    show FrontOnly _ (c.writes ++ [_] ++ okWritten rest)
    rw [hwrites, hok]
    exact frontOnly_singleton _ _ _
  | unwritten strand => exact Orderly.fail (h.uncons strand rfl)
  | @renew rest strand =>
    -- the queue is cleared, which no write may notice
    have hnone := hidle rfl (congrArg List.head? strand)
    rw [live, strand] at hnone
    show FrontOnly [] (c.writes ++ okWritten rest)
    rw [show c.writes ++ okWritten rest = [] from hnone]
    exact frontOnly_nil []
  | cancelled strand => exact h.uncons strand rfl
  | @written n ec w write =>
    obtain ⟨hwrites, hok, hfront⟩ := h.completing write
    show FrontOnly c.mq (c.writes.eraseIdx n ++ okWritten (c.strand ++ [.written ec w]))
    rw [okWritten_append, hwrites, hok]
    cases ec with
    | ok =>
      refine ⟨Nat.le_refl 1, fun v hv => ?_⟩
      obtain rfl := List.mem_singleton.mp hv
      exact hfront
    | failed => exact frontOnly_nil c.mq
  | read pending => exact h
  | unread pending => exact Orderly.fail h
  | connected pending => exact h
  | refused pending => exact Orderly.fail h
  | expire armed => exact h.post rfl

/-- The step from the invariant. -/
theorem Orderly.retiresFront (h : Orderly c) (a : Action M) : RetiresFront c a := by
  intro _ w hhead
  obtain ⟨rest, hstrand⟩ := List.head?_eq_some_iff.mp hhead
  apply h.2 w
  rw [live, hstrand]
  exact List.mem_append_right _ List.mem_cons_self

/-- **A completed write retires its message** in every run in which the queue is not cleared
under a write. Induction on the run. -/
theorem write_retires_front (as : List (Action M))
    (h : Along step ClearsIdle (start : Channel M) as) :
    Along step RetiresFront (start : Channel M) as :=
  along_of_inv (fun _ _ _ hinv hidle hstep => hinv.step hidle hstep)
    (fun _ a hinv _ => hinv.retiresFront a) orderly_start h

/-- A message is sent over the first connection. -/
theorem write_retires_front_first :
    Along step RetiresFront (start : Channel String)
      [.connected 0 .ok, .send "m", .run, .written 0 .ok, .run] ∧
    ∃ c, exec step (start : Channel String) [.connected 0 .ok, .send "m", .run, .written 0 .ok]
        = some c ∧ c.strand.head? = some (.written .ok ⟨⟨0, "m"⟩, 1⟩) :=
  ⟨write_retires_front _ (by decide), _, rfl, rfl⟩

/-- **The timer clears the queue under a write.** The connection is closed from the other side,
a message is sent before the timer expires, and its write completes behind the handler of the
timer: the handler of the write finds an empty queue. -/
theorem write_retires_nothing :
    ¬ Along step RetiresFront (start : Channel String)
      [.connected 0 .ok, .read 0 .failed, .send "m", .run, .expire, .written 0 .ok, .run,
        .run] := by
  intro h
  have hlast := ((((((h.2 _ rfl).2 _ rfl).2 _ rfl).2 _ rfl).2 _ rfl).2 _ rfl).2 _ rfl
  exact absurd (hlast.1 rfl ⟨⟨0, "m"⟩, 1⟩ rfl) (by decide)

/-! ## A healthy connection -/

/-- A reconnect is due: the timer runs, or has expired. -/
def Due (c : Channel M) : Prop := c.armed = true ∨ .timer .ok ∈ c.strand

/-- The front of the queue, if there is one, is being written. -/
def FrontWritten (c : Channel M) : Prop :=
  ∀ buffer, c.mq.head? = some buffer →
    ∃ w : Write M, w.buffer = buffer ∧ (w ∈ c.writes ∨ ∃ ec, .written ec w ∈ c.strand)

/-- The step handles an error of a write, a read or a connect. -/
def reports (c : Channel M) : Action M → Bool
  | .run => match c.strand with
    | .written .failed _ :: _ => true
    | _ => false
  | .read _ .failed => true
  | .connected _ .failed => true
  | _ => false

/-- No error is handled while a reconnect is under way: neither between the expiry of the timer
and its handler nor during a connect, but for the failure of the connect itself. -/
def Settles (c : Channel M) (a : Action M) : Prop :=
  c.reports a = true → .timer .ok ∉ c.strand ∧ (c.connects = [] ∨ a = .connected 0 .failed)

instance [DecidableEq M] (c : Channel M) (a : Action M) : Decidable (Settles c a) :=
  inferInstanceAs (Decidable (_ → _))

/-- The expiries of the timer that have not been handled. -/
def expiries : List (ChannelTask M) → ℕ
  | [] => 0
  | .timer .ok :: tasks => expiries tasks + 1
  | _ :: tasks => expiries tasks

@[simp] theorem expiries_append (as bs : List (ChannelTask M)) :
    expiries (as ++ bs) = expiries as + expiries bs := by
  induction as with
  | nil => exact (Nat.zero_add _).symm
  | cons a as ih =>
    cases a with
    | send msg => exact ih
    | written ec w => exact ih
    | timer ec =>
      cases ec with
      | ok =>
        show expiries (as ++ bs) + 1 = expiries as + 1 + expiries bs
        omega
      | failed => exact ih

/-- Cancelled timers do not expire. -/
theorem expiries_timers {tasks : List (ChannelTask M)} (h : ∀ t ∈ tasks, t = .timer .failed) :
    expiries tasks = 0 := by
  induction tasks with
  | nil => rfl
  | cons t tasks ih =>
    obtain rfl := h t List.mem_cons_self
    exact ih fun t ht => h t (List.mem_cons_of_mem _ ht)

/-- A reconnect sets a timer that has not expired. -/
@[simp] theorem expiries_reconnect (c : Channel M) :
    expiries c.reconnect.strand = expiries c.strand := by
  obtain ⟨tasks, hstrand, htasks⟩ := reconnect_strand c
  rw [hstrand, expiries_append, expiries_timers htasks, Nat.add_zero]

/-- An expiry waits when there is one. -/
theorem mem_iff_expiries {tasks : List (ChannelTask M)} :
    .timer .ok ∈ tasks ↔ expiries tasks ≠ 0 := by
  induction tasks with
  | nil => exact iff_of_false List.not_mem_nil (fun h => h rfl)
  | cons t tasks ih =>
    rw [List.mem_cons, ih]
    cases t with
    | send msg => exact or_iff_right (by simp)
    | written ec w => exact or_iff_right (by simp)
    | timer ec =>
      cases ec with
      | ok => exact iff_of_true (Or.inl rfl) (Nat.succ_ne_zero _)
      | failed => exact or_iff_right (by simp)

/-- Where a channel is between two connections. -/
inductive Stage (c : Channel M) : Prop
  | connecting (connects : c.connects = [c.attempts]) (healthy : c.healthy = false)
      (armed : c.armed = false) (expiry : expiries c.strand = 0) (front : FrontWritten c)
  | up (connects : c.connects = []) (healthy : c.healthy = true)
      (armed : c.armed = false) (expiry : expiries c.strand = 0) (front : FrontWritten c)
  | waiting (connects : c.connects = []) (healthy : c.healthy = false)
      (armed : c.armed = true) (expiry : expiries c.strand = 0)
  | expired (connects : c.connects = []) (healthy : c.healthy = false)
      (armed : c.armed = false) (expiry : expiries c.strand = 1)

/-- **The invariant of an active channel.** -/
structure Usable (c : Channel M) : Prop where
  active : c.active = true
  stage : Stage c

/-- A channel starts with a connect on its way. -/
theorem usable_start : Usable (start : Channel M) := ⟨rfl, .connecting rfl rfl rfl rfl nofun⟩

/-- A step that reports no error and leaves the connects and the timer alone. -/
theorem Usable.keep (h : Usable c) (hactive : c'.active = c.active)
    (hconnects : c'.connects = c.connects) (hattempts : c'.attempts = c.attempts)
    (hhealthy : c'.healthy = c.healthy) (harmed : c'.armed = c.armed)
    (hexpiry : expiries c'.strand = expiries c.strand) (hfront : FrontWritten c → FrontWritten c') :
    Usable c' := by
  refine ⟨hactive.trans h.active, ?_⟩
  -- no stage looks at anything else
  cases h.stage with
  | connecting connects healthy armed expiry front =>
    exact .connecting (by rw [hconnects, hattempts, connects]) (hhealthy.trans healthy)
      (harmed.trans armed) (hexpiry.trans expiry) (hfront front)
  | up connects healthy armed expiry front =>
    exact .up (hconnects.trans connects) (hhealthy.trans healthy) (harmed.trans armed)
      (hexpiry.trans expiry) (hfront front)
  | waiting connects healthy armed expiry =>
    exact .waiting (hconnects.trans connects) (hhealthy.trans healthy) (harmed.trans armed)
      (hexpiry.trans expiry)
  | expired connects healthy armed expiry =>
    exact .expired (hconnects.trans connects) (hhealthy.trans healthy) (harmed.trans armed)
      (hexpiry.trans expiry)

/-- An error when no reconnect is under way arms the timer. -/
theorem usable_fail (hactive : c.active = true) (hconnects : c.connects = [])
    (hexpiry : expiries c.strand = 0) : Usable c.fail := by
  have harmed : c.reconnect.armed = true := by
    unfold reconnect
    rw [if_pos hactive]
  refine ⟨?_, .waiting ((reconnect_connects c).trans hconnects) rfl harmed
    ((expiries_reconnect c).trans hexpiry)⟩
  show c.reconnect.active = true
  unfold reconnect
  rw [if_pos hactive]
  exact hactive

/-- A write that is pending stays so until its completion has run. -/
theorem FrontWritten.keep (h : FrontWritten c) (hmq : c'.mq = c.mq)
    (hpending : ∀ w, (w ∈ c.writes ∨ ∃ ec, .written ec w ∈ c.strand) →
      w ∈ c'.writes ∨ ∃ ec, .written ec w ∈ c'.strand) : FrontWritten c' := by
  intro buffer hbuffer
  obtain ⟨w, hw, hpend⟩ := h buffer (hmq ▸ hbuffer)
  exact ⟨w, hw, hpending w hpend⟩

/-- A write that has just been started is one of the front, whatever was written before. -/
theorem Usable.begun (h : Usable c) {front : Buffer M} {w : Write M} (hw : w.buffer = front)
    (hmem : w ∈ c'.writes) (hfront : c'.mq.head? = some front) (hactive : c'.active = c.active)
    (hconnects : c'.connects = c.connects) (hattempts : c'.attempts = c.attempts)
    (hhealthy : c'.healthy = c.healthy) (harmed : c'.armed = c.armed)
    (hexpiry : expiries c'.strand = expiries c.strand) : Usable c' := by
  refine h.keep hactive hconnects hattempts hhealthy harmed hexpiry fun _ buffer hhead => ?_
  obtain rfl := Option.some.inj (hfront.symm.trans hhead)
  exact ⟨w, hw, Or.inl hmem⟩

/-- No reconnect is under way when an error is handled that is not of a connect. -/
theorem Settles.idle {a : Action M} (h : Settles c a) (hreports : c.reports a = true)
    (hother : a ≠ .connected 0 .failed) : c.connects = [] ∧ expiries c.strand = 0 := by
  obtain ⟨hexpired, hconnects⟩ := h hreports
  refine ⟨hconnects.resolve_right hother, ?_⟩
  rw [mem_iff_expiries, not_not] at hexpired
  exact hexpired

/-- What is being written still is when a task that is no completion has been taken from the
strand. -/
theorem FrontWritten.uncons {t : ChannelTask M} {rest : List (ChannelTask M)} (h : FrontWritten c)
    (hstrand : c.strand = t :: rest) (ht : ∀ ec w, t ≠ .written ec w)
    (hwrites : c'.writes = c.writes) (hrest : c'.strand = rest)
    (hhead : c'.mq.head? = c.mq.head?) : FrontWritten c' := by
  intro buffer hbuffer
  obtain ⟨w, hw, hpending⟩ := h buffer (hhead ▸ hbuffer)
  refine ⟨w, hw, ?_⟩
  rw [hwrites, hrest]
  refine hpending.imp_right fun ⟨ec, hec⟩ => ⟨ec, ?_⟩
  rw [hstrand] at hec
  exact (List.mem_cons.mp hec).resolve_left fun heq => ht ec w heq.symm

/-- What is being written still is when a task has been queued. -/
theorem FrontWritten.post {t : ChannelTask M} (h : FrontWritten c) (hmq : c'.mq = c.mq)
    (hwrites : c'.writes = c.writes) (hstrand : c'.strand = c.strand ++ [t]) : FrontWritten c' := by
  refine h.keep hmq fun w hw => ?_
  rw [hwrites, hstrand]
  exact hw.imp_right fun ⟨ec, hec⟩ => ⟨ec, List.mem_append_left _ hec⟩

/-- A timer that has expired is the only one. -/
theorem Usable.expired (h : Usable c) {rest : List (ChannelTask M)}
    (hstrand : c.strand = .timer .ok :: rest) :
    c.connects = [] ∧ c.armed = false ∧ expiries rest = 0 := by
  cases h.stage with
  | expired connects healthy armed expiry =>
    rw [hstrand] at expiry
    exact ⟨connects, armed, Nat.succ.inj expiry⟩
  | connecting _ _ _ expiry _ | up _ _ _ expiry _ | waiting _ _ _ expiry =>
    rw [hstrand] at expiry
    exact absurd expiry (Nat.succ_ne_zero _)

/-- A connect that completes is the latest one, and the only one. -/
theorem Usable.connecting (h : Usable c) {n attempt : ℕ}
    (hpending : c.connects[n]? = some attempt) :
    attempt = c.attempts ∧ c.connects.eraseIdx n = [] ∧ c.armed = false ∧
      expiries c.strand = 0 ∧ FrontWritten c := by
  cases h.stage with
  | up connects _ _ _ _ | waiting connects _ _ _ | expired connects _ _ _ =>
    rw [connects] at hpending
    cases hpending
  | connecting connects healthy armed expiry front =>
    rw [connects, List.getElem?_singleton] at hpending
    split at hpending
    · next hzero =>
      obtain rfl := Option.some.inj hpending
      rw [hzero, connects]
      exact ⟨rfl, rfl, armed, expiry, front⟩
    · cases hpending

/-- **One step.** -/
theorem Usable.step {a : Action M} (h : Usable c) (hsettles : Settles c a)
    (hstep : c.step a = some c') : Usable c' := by
  cases moves_of_step hstep with
  | @send msg =>
    refine h.keep rfl rfl rfl rfl rfl ?_ fun hfront => hfront.post rfl rfl rfl
    show expiries (c.strand ++ [.send msg]) = _
    rw [expiries_append]
    rfl
  | queue strand busy =>
    refine h.keep rfl rfl rfl rfl rfl (by rw [strand]; rfl) fun hfront => ?_
    exact hfront.uncons strand nofun rfl rfl (List.head?_append_of_ne_nil _ busy)
  | begin strand mq =>
    exact h.begun rfl (List.mem_append_right _ List.mem_cons_self) rfl rfl rfl rfl rfl rfl
      (by rw [strand]; rfl)
  | retire strand mq =>
    refine h.keep rfl rfl rfl rfl rfl (by rw [strand]; rfl) fun _ buffer hhead => ?_
    cases hhead
  | next strand mq =>
    exact h.begun rfl (List.mem_append_right _ List.mem_cons_self) rfl rfl rfl rfl rfl rfl
      (by rw [strand]; rfl)
  -- an error with no reconnect under way: the timer starts
  | unwritten strand =>
    have hreports : c.reports .run = true := by rw [reports, strand]
    obtain ⟨hconnects, hexpiry⟩ := hsettles.idle hreports (fun heq => by cases heq)
    rw [strand] at hexpiry
    exact usable_fail h.active hconnects hexpiry
  | renew strand =>
    obtain ⟨hconnects, harmed, hexpiry⟩ := h.expired strand
    refine ⟨h.active, .connecting ?_ rfl harmed hexpiry nofun⟩
    show c.connects ++ [c.attempts + 1] = [c.attempts + 1]
    rw [hconnects]
    rfl
  | cancelled strand =>
    refine h.keep rfl rfl rfl rfl rfl (by rw [strand]; rfl) fun hfront => ?_
    exact hfront.uncons strand nofun rfl rfl rfl
  | @written n ec w write =>
    refine h.keep rfl rfl rfl rfl rfl ?_ fun hfront => hfront.keep rfl fun v hv => ?_
    · show expiries (c.strand ++ [ChannelTask.written ec w]) = _
      rw [expiries_append]
      rfl
    · rcases hv with hv | ⟨ec', hec'⟩
      · -- the write that completes goes to the strand, any other one stays
        obtain ⟨hlt, rfl⟩ := List.getElem?_eq_some_iff.mp write
        have hperm := (List.getElem_cons_eraseIdx_perm hlt).symm
        rcases List.mem_cons.mp (hperm.subset hv) with rfl | hv
        · exact Or.inr ⟨ec, List.mem_append_right _ List.mem_cons_self⟩
        · exact Or.inl hv
      · exact Or.inr ⟨ec', List.mem_append_left _ hec'⟩
  | read pending => exact h.keep rfl rfl rfl rfl rfl rfl id
  | unread pending =>
    obtain ⟨hconnects, hexpiry⟩ := hsettles.idle rfl (fun heq => by cases heq)
    exact usable_fail h.active hconnects hexpiry
  | connected pending =>
    obtain ⟨rfl, hnone, harmed, hexpiry, hfront⟩ := h.connecting pending
    exact ⟨h.active, .up hnone (by simp) harmed hexpiry hfront⟩
  | refused pending =>
    obtain ⟨-, hnone, -, hexpiry, -⟩ := h.connecting pending
    exact usable_fail h.active hnone hexpiry
  | expire armed =>
    cases h.stage with
    | waiting connects healthy _ expiry =>
      refine ⟨h.active, .expired connects healthy rfl ?_⟩
      show expiries (c.strand ++ [.timer .ok]) = 1
      rw [expiries_append, expiry]
      rfl
    | connecting _ _ harmed _ _ | up _ _ harmed _ _ | expired _ _ harmed _ =>
      rw [harmed] at armed
      cases armed

/-- **A healthy connection stays usable** in every run in which no error is handled while a
reconnect is under way. -/
theorem healthy_usable {as : List (Action M)} (h : Along step Settles (start : Channel M) as)
    (hrun : exec step (start : Channel M) as = some c) (hhealthy : c.healthy = true) :
    ¬ c.Due ∧ c.FrontWritten := by
  have husable : Usable c := exec_inv_along (fun _ _ _ hinv hsettles hstep =>
    hinv.step hsettles hstep) usable_start h hrun
  -- of the four stages only one is healthy
  cases husable.stage with
  | up connects healthy armed expiry front =>
    refine ⟨?_, front⟩
    rintro (hdue | hdue)
    · rw [armed] at hdue
      cases hdue
    · exact mem_iff_expiries.mp hdue expiry
  | connecting _ healthy _ _ _ | waiting _ healthy _ _ | expired _ healthy _ _ =>
    rw [healthy] at hhealthy
    cases hhealthy

/-- A connection breaks, is made again, and a message is on its way. -/
theorem healthy_usable_again : ∃ c,
    exec step (start : Channel String) [.connected 0 .ok, .read 0 .failed, .expire, .run,
      .connected 0 .ok, .send "m", .run] = some c ∧
    c.healthy = true ∧ c.mq = [⟨0, "m"⟩] ∧ ¬ c.Due ∧ c.FrontWritten :=
  ⟨_, rfl, rfl, rfl, @healthy_usable _ _ [.connected 0 .ok, .read 0 .failed, .expire, .run,
    .connected 0 .ok, .send "m", .run] (by decide) rfl rfl⟩

/-- **A message sent before the connect completes.** Its write fails, which arms the timer; the
connect succeeds, the timer runs on, and the message stays at the front of the queue. -/
theorem healthy_unusable : ∃ c,
    exec step (start : Channel String) [.send "m", .run, .written 0 .failed, .run,
      .connected 0 .ok] = some c ∧
    c.healthy = true ∧ c.Due ∧ ¬ c.FrontWritten := by
  refine ⟨_, rfl, rfl, Or.inl rfl, fun hfront => ?_⟩
  obtain ⟨w, _, hw | ⟨ec, hw⟩⟩ := hfront ⟨0, "m"⟩ rfl
  · cases hw
  · cases hw

end Channel

end Cs457.Kv
