import Cs457.Kv.Events

/-!
# Key-value store — requests in progress

A get or a put with consistency `c` is entered in a table with the counter `c - 1`. Each
completion for its uuid takes one off, in 32 bits, and the one that finds 1 sends the reply.
A put with `c = 1` is answered when it is entered, a get with `c = 1` when it comes in.

* **`Session`** — a coordinator together with a record of its requests: which uuid a request
  got, how many completions for the uuid have been handled and what has been replied to it.
* **`Request.Served`** — a request has its one reply exactly if enough completions have been
  handled.
* **`Table`** — the strand and the table of one kind of requests agree with the record.
* **`Table.append_request`, `receive_answers`, `enter_oldest`, `count_completion`** — what can
  happen to a table; the last two replace one request, as in `Table.swap_request`.
-/

namespace Cs457.Kv

inductive Kind where
  | get
  | put
  deriving DecidableEq, Repr

theorem Kind.eq_put {κ : Kind} (h : κ ≠ .get) : κ = .put := by
  cases κ with
  | get => exact absurd rfl h
  | put => rfl

theorem Kind.eq_get {κ : Kind} (h : κ ≠ .put) : κ = .get := by
  cases κ with
  | get => rfl
  | put => exact absurd rfl h

/-- A request as its client sent it. -/
structure Ask where
  client : Client
  stream : UInt32
  key : UInt32
  consistency : UInt32
  deriving DecidableEq, Repr

def GetKey.ask (msg : GetKey) (client : Client) : Ask :=
  ⟨client, msg.stream, msg.key, msg.consistency⟩

def PutKey.ask (msg : PutKey) (client : Client) : Ask :=
  ⟨client, msg.stream, msg.key, msg.consistency⟩

/-- The reply to a request carries its stream and its key. -/
def Ask.AnsweredBy (ask : Ask) : Kind → ClientMessage → Prop
  | .get, .getKeyResp resp => resp.stream = ask.stream ∧ resp.key = ask.key
  | .put, .putKeyResp resp => resp.stream = ask.stream ∧ resp.key = ask.key
  | _, _ => False

/-- What has become of a request: `started` says that its task has run or that it was answered
without one, `handled` counts the completions for its uuid. -/
structure Request where
  ask : Ask
  uuid : Option String
  started : Bool
  handled : ℕ := 0
  replies : List (Client × ClientMessage)
  deriving DecidableEq, Repr

namespace Request

/-- The request is entered under `u`, when it waits to be and no other uuid was drawn for it. -/
def enter (u : String) (replies : List (Client × ClientMessage)) (r : Request) : Option Request :=
  if r.started = false ∧ (r.uuid = none ∨ r.uuid = some u)
    then some { r with uuid := some u, started := true, replies := r.replies ++ replies } else none

/-- A completion for `u` is handled. -/
def count (u : String) (replies : List (Client × ClientMessage)) (r : Request) : Option Request :=
  if r.started = true ∧ r.uuid = some u
    then some { r with handled := r.handled + 1, replies := r.replies ++ replies } else none

/-- With `n` replicas the request is to have its reply by now. -/
def Due (n : ℕ) (r : Request) : Prop :=
  r.started = true ∧ 1 ≤ r.ask.consistency.toNat ∧ r.ask.consistency.toNat ≤ n + 1 ∧
    r.ask.consistency.toNat - 1 ≤ r.handled

/-- One reply, to the client that asked, if it is due, and none otherwise. -/
def Served (κ : Kind) (n : ℕ) (r : Request) : Prop :=
  (r.Due n → ∃ msg, r.replies = [(r.ask.client, msg)] ∧ r.ask.AnsweredBy κ msg) ∧
    (¬ r.Due n → r.replies = [])

end Request

/-- A coordinator and the record of its run. `drawn` are the uuids in use, `answers` the uuids
of the completions received with the number of their sender, `sent` all replies. -/
structure Session where
  server : Coordinator
  requests : Kind → List Request := fun _ => []
  drawn : List String := []
  answers : List (String × ℕ) := []
  sent : List (Client × ClientMessage) := []

namespace Session

open Coordinator

def replies (es : List Effect) : List (Client × ClientMessage) :=
  es.filterMap fun
    | .reply client msg => some (client, msg)
    | _ => none

/-- The record of the requests after an event that sends `rs`. The strands are first-in
first-out, so the task of a get is that of the oldest get that waits. -/
def note (s : Session) (ev : Event) (rs : List (Client × ClientMessage)) : Kind → List Request :=
  match ev with
  | .client client (.getKey msg) _ _ => Function.update s.requests .get (s.requests .get ++
      [{ ask := msg.ask client, uuid := none, started := msg.consistency = 1, replies := rs }])
  | .client client (.putKey msg) _ uuid => Function.update s.requests .put (s.requests .put ++
      [{ ask := msg.ask client, uuid := some uuid, started := false, replies := rs }])
  | .runRead uuid => match s.server.readStrand with
    | .start _ _ _ :: _ =>
      Function.update s.requests .get ((s.requests .get).replaceF (Request.enter uuid rs))
    | .complete msg :: _ =>
      Function.update s.requests .get ((s.requests .get).replaceF (Request.count msg.uuid rs))
    | [] => s.requests
  | .runWrite => match s.server.writeStrand with
    | .start _ _ uuid _ :: _ =>
      Function.update s.requests .put ((s.requests .put).replaceF (Request.enter uuid rs))
    | .complete msg _ :: _ =>
      Function.update s.requests .put ((s.requests .put).replaceF (Request.count msg.uuid rs))
    | [] => s.requests
  | _ => s.requests

/-- The uuid that an event draws. -/
def draws (s : Session) (ev : Event) : List String :=
  match ev with
  | .client _ (.putKey _) _ uuid => [uuid]
  | .runRead uuid => match s.server.readStrand with
    | .start _ _ _ :: _ => [uuid]
    | _ => []
  | _ => []

/-- What is known of the world: the uuids drawn are distinct and a replica answers a uuid at
most once. -/
def Admits (s : Session) (ev : Event) : Prop :=
  (∀ u ∈ s.draws ev, u ∉ s.drawn) ∧ (∀ a ∈ s.server.receives ev, a ∉ s.answers) ∧
    s.server.channelExists ev = true

instance (s : Session) (ev : Event) : Decidable (s.Admits ev) :=
  inferInstanceAs (Decidable (_ ∧ _ ∧ _))

/-- The session after an event. -/
def record (s : Session) (ev : Event) (res : Coordinator × List Effect) : Session where
  server := res.1
  requests := s.note ev (replies res.2)
  drawn := s.drawn ++ s.draws ev
  answers := s.answers ++ s.server.receives ev
  sent := s.sent ++ replies res.2

def step (codecs : Codecs) (s : Session) (ev : Event) : Option Session :=
  if s.Admits ev then (s.server.handle codecs ev).map (s.record ev) else none

/-- All requests so far. -/
def all (s : Session) : List Request := s.requests .get ++ s.requests .put

end Session

/-! ## One kind of requests -/

/-- The request of a task, with the uuid that the task carries. -/
def ReadTask.slip : ReadTask → Option (Ask × Option String)
  | .start msg client _ => some (msg.ask client, none)
  | .complete _ => none

def WriteTask.slip : WriteTask → Option (Ask × Option String)
  | .start msg client uuid _ => some (msg.ask client, some uuid)
  | .complete _ _ => none

def ReadTask.completes (u : String) : ReadTask → Bool
  | .start _ _ _ => false
  | .complete msg => msg.uuid = u

def WriteTask.completes (u : String) : WriteTask → Bool
  | .start _ _ _ _ => false
  | .complete msg _ => msg.uuid = u

namespace Request

/-- The task of a request that waits in the strand. -/
def slip (r : Request) : Option (Ask × Option String) :=
  if r.started = true then none else some (r.ask, r.uuid)

/-- The request is entered under `u`. -/
def Holds (u : String) (r : Request) : Prop := r.started = true ∧ r.uuid = some u

/-- Its entry. -/
def entry (r : Request) : PendingWrite :=
  ⟨r.ask.stream, r.ask.key, r.ask.consistency - 1 - UInt32.ofNat r.handled, r.ask.client⟩

/-- Two requests with different uuids. -/
def Apart (r r' : Request) : Prop := ∀ u, r.uuid = some u → r'.uuid ≠ some u

instance : Std.Symm Apart := ⟨fun _ _ h u hr' hr => h u hr hr'⟩

/-- A uuid is held by one request. -/
theorem holds_unique {rs : List Request} (hrs : rs.Pairwise Apart) {r r' : Request} {u : String}
    (hr : r ∈ rs) (hr' : r' ∈ rs) (hu : r.uuid = some u) (hu' : r'.uuid = some u) : r = r' := by
  by_contra hne
  exact hrs.forall hr hr' hne u hu hu'

end Request

namespace Coordinator

/-- The strand of one kind of requests: the requests that wait to be entered. -/
def startsOf (c : Coordinator) : Kind → List (Ask × Option String)
  | .get => c.readStrand.filterMap ReadTask.slip
  | .put => c.writeStrand.filterMap WriteTask.slip

/-- The completions for `u` in the strand. -/
def arrived (c : Coordinator) (u : String) : Kind → ℕ
  | .get => c.readStrand.countP (ReadTask.completes u)
  | .put => c.writeStrand.countP (WriteTask.completes u)

/-- The entry of `u`, without the results of a read. -/
def entryOf (c : Coordinator) (u : String) : Kind → Option PendingWrite
  | .get => (c.pendingReads.lookup u).map fun p => ⟨p.stream, p.key, p.consistency, p.requestor⟩
  | .put => c.pendingWrites.lookup u

end Coordinator

open Coordinator

/-- The number of completions for `u` that have been received. -/
def received (answers : List (String × ℕ)) (u : String) : ℕ := answers.countP fun a => a.1 = u

/-- **The strand and the table of one kind of requests.** -/
structure Table (n : ℕ) (c : Coordinator) (κ : Kind) (rs : List Request)
    (answers : List (String × ℕ)) : Prop where
  starts : c.startsOf κ = rs.filterMap Request.slip
  entered : ∀ {u e}, c.entryOf u κ = some e → ∃ r ∈ rs, r.Holds u ∧ e = r.entry
  found : ∀ {r u}, r ∈ rs → r.Holds u → ∃ e, c.entryOf u κ = some e
  few : ∀ u, c.arrived u κ ≤ received answers u
  counted : ∀ {r u}, r ∈ rs → r.Holds u → r.handled + c.arrived u κ ≤ received answers u
  distinct : rs.Pairwise Request.Apart
  quiet : ∀ r ∈ rs, r.started = false → r.handled = 0
  many : κ = .get → ∀ r ∈ rs, r.started = false → r.ask.consistency ≠ 1
  served : ∀ r ∈ rs, r.Served κ n

namespace Table

variable {n : ℕ} {c c' : Coordinator} {κ : Kind} {rs : List Request}
  {answers new : List (String × ℕ)}

/-- A new request. -/
theorem append_request (h : Table n c κ rs answers) {r₀ : Request}
    (hstarts : c'.startsOf κ = c.startsOf κ ++ r₀.slip.toList)
    (hentry : ∀ u, c'.entryOf u κ = c.entryOf u κ) (harrived : ∀ u, c'.arrived u κ = c.arrived u κ)
    (hnew : ∀ u, ¬ r₀.Holds u) (hquiet : r₀.handled = 0) (hapart : ∀ r ∈ rs, r.Apart r₀)
    (hmany : κ = .get → r₀.started = false → r₀.ask.consistency ≠ 1) (hserved : r₀.Served κ n) :
    Table n c' κ (rs ++ [r₀]) answers := by
  -- What every request satisfies, the new one included.
  have hmem : ∀ {P : Request → Prop}, (∀ r ∈ rs, P r) → P r₀ → ∀ r ∈ rs ++ [r₀], P r := by
    intro P hrs hr₀ r hr
    rcases List.mem_append.mp hr with hr | hr
    · exact hrs r hr
    · rw [List.mem_singleton.mp hr]
      exact hr₀
  constructor
  · rw [hstarts, h.starts, List.filterMap_append]
    cases hslip : r₀.slip <;> simp [hslip]
  · intro u e he
    rw [hentry] at he
    obtain ⟨r, hr, hholds⟩ := h.entered he
    exact ⟨r, List.mem_append_left _ hr, hholds⟩
  · intro r u hr hholds
    rw [hentry]
    rcases List.mem_append.mp hr with hr | hr
    · exact h.found hr hholds
    · rw [List.mem_singleton.mp hr] at hholds
      exact absurd hholds (hnew u)
  · intro u
    rw [harrived]
    exact h.few u
  · intro r u hr hholds
    rw [harrived]
    rcases List.mem_append.mp hr with hr | hr
    · exact h.counted hr hholds
    · rw [List.mem_singleton.mp hr] at hholds
      exact absurd hholds (hnew u)
  · rw [List.pairwise_append]
    refine ⟨h.distinct, List.pairwise_singleton _ _, fun r hr r' hr' => ?_⟩
    rw [List.mem_singleton.mp hr']
    exact hapart r hr
  · exact hmem h.quiet fun _ => hquiet
  · intro hget
    exact hmem (h.many hget) (hmany hget)
  · exact hmem h.served hserved

/-- Completions come in. -/
theorem receive_answers (h : Table n c κ rs answers) (hstarts : c'.startsOf κ = c.startsOf κ)
    (hentry : ∀ u, c'.entryOf u κ = c.entryOf u κ)
    (harrived : ∀ u, c'.arrived u κ ≤ c.arrived u κ + received new u) :
    Table n c' κ rs (answers ++ new) := by
  -- The answers are only ever counted, so the list matters up to its counts.
  have hsum : ∀ u, received (answers ++ new) u = received answers u + received new u :=
    fun u => List.countP_append
  constructor
  · rw [hstarts]
    exact h.starts
  · intro u e he
    exact h.entered (hentry u ▸ he)
  · intro r u hr hholds
    rw [hentry]
    exact h.found hr hholds
  · intro u
    have hfew := h.few u
    have hle := harrived u
    rw [hsum]
    omega
  · intro r u hr hholds
    have hcounted := h.counted hr hholds
    have hle := harrived u
    rw [hsum]
    omega
  · exact h.distinct
  · exact h.quiet
  · exact h.many
  · exact h.served

/-- Nothing happens to the requests of this kind. -/
theorem unaffected (h : Table n c κ rs answers) (hstarts : c'.startsOf κ = c.startsOf κ)
    (hentry : ∀ u, c'.entryOf u κ = c.entryOf u κ)
    (harrived : ∀ u, c'.arrived u κ = c.arrived u κ) : Table n c' κ rs (answers ++ new) :=
  h.receive_answers hstarts hentry fun u => by
    rw [harrived]
    exact Nat.le_add_right _ _

/-! A request that is updated stands between the others where it stood. -/

/-- `r` has become `r'`. -/
def Swap (rs rs' : List Request) (r r' : Request) : Prop :=
  ∃ l₁ l₂, rs = l₁ ++ r :: l₂ ∧ rs' = l₁ ++ r' :: l₂

/-- `replaceF` replaces the first request that matches. -/
theorem replaceF_append {f : Request → Option Request} {l₁ l₂ : List Request} {r r' : Request}
    (hnone : ∀ x ∈ l₁, f x = none) (hsome : f r = some r') :
    (l₁ ++ r :: l₂).replaceF f = l₁ ++ r' :: l₂ := by
  induction l₁ with
  | nil => rw [List.nil_append, List.replaceF_cons_of_some f hsome, List.nil_append]
  | cons x l₁ ih =>
    rw [List.cons_append, List.replaceF_cons_of_none f (hnone x List.mem_cons_self),
      ih fun y hy => hnone y (List.mem_cons_of_mem x hy), List.cons_append]

namespace Swap

variable {rs' : List Request} {r r' : Request}

theorem mem_old (h : Swap rs rs' r r') : r ∈ rs := by
  obtain ⟨l₁, l₂, rfl, _⟩ := h
  exact List.mem_append_right _ List.mem_cons_self

theorem mem_new (h : Swap rs rs' r r') : r' ∈ rs' := by
  obtain ⟨l₁, l₂, _, rfl⟩ := h
  exact List.mem_append_right _ List.mem_cons_self

/-- A request is the one that is updated or is still there. -/
theorem kept (h : Swap rs rs' r r') {x : Request} (hx : x ∈ rs) : x = r ∨ x ∈ rs' := by
  obtain ⟨l₁, l₂, rfl, rfl⟩ := h
  rcases List.mem_append.mp hx with hx | hx
  · exact Or.inr (List.mem_append_left _ hx)
  · rcases List.mem_cons.mp hx with rfl | hx
    · exact Or.inl rfl
    · exact Or.inr (List.mem_append_right _ (List.mem_cons_of_mem r' hx))

/-- What holds of all requests before and of the updated one holds of all requests after. -/
theorem forall_new (h : Swap rs rs' r r') {P : Request → Prop} (hrs : ∀ x ∈ rs, P x)
    (hr' : P r') : ∀ x ∈ rs', P x := by
  obtain ⟨l₁, l₂, rfl, rfl⟩ := h
  intro x hx
  rcases List.mem_append.mp hx with hx | hx
  · exact hrs x (List.mem_append_left _ hx)
  · rcases List.mem_cons.mp hx with rfl | hx
    · exact hr'
    · exact hrs x (List.mem_append_right _ (List.mem_cons_of_mem r hx))

/-- The requests stay apart if the updated one is apart from those the old one was. -/
theorem distinct (h : Swap rs rs' r r') (hdistinct : rs.Pairwise Request.Apart)
    (hr' : ∀ x ∈ rs, r.Apart x → r'.Apart x) : rs'.Pairwise Request.Apart := by
  obtain ⟨l₁, l₂, rfl, rfl⟩ := h
  obtain ⟨hl₁, hr, hcross⟩ := List.pairwise_append.mp hdistinct
  obtain ⟨hr, hl₂⟩ := List.pairwise_cons.mp hr
  refine List.pairwise_append.mpr ⟨hl₁, List.pairwise_cons.mpr ⟨fun x hx => ?_, hl₂⟩, ?_⟩
  · exact hr' x (List.mem_append_right _ (List.mem_cons_of_mem r hx)) (hr x hx)
  · intro x hx y hy
    rcases List.mem_cons.mp hy with rfl | hy
    · exact symm (hr' x (List.mem_append_left _ hx) (symm (hcross x hx r List.mem_cons_self)))
    · exact hcross x hx y (List.mem_cons_of_mem r hy)

/-- The replies of all requests: those of the event are new. -/
theorem replies (h : Swap rs rs' r r') {new : List (Client × ClientMessage)}
    (hr' : r'.replies = r.replies ++ new) :
    (rs'.flatMap Request.replies).Perm (rs.flatMap Request.replies ++ new) := by
  obtain ⟨l₁, l₂, rfl, rfl⟩ := h
  simp only [List.flatMap_append, List.flatMap_cons, hr', List.append_assoc]
  exact ((List.perm_append_comm).append_left _).append_left _

end Swap

section

variable {rs' : List Request} {r r' : Request} {u : String}

/-- The entry of the updated request is its own, and those of the others are as before. -/
theorem Swap.entered (hswap : Swap rs rs' r r') (h : Table n c κ rs answers) (hu : r'.Holds u)
    (honly : ∀ w, r.Holds w → w = u)
    (hentry : ∀ x, c'.entryOf x κ = if x = u then some r'.entry else c.entryOf x κ) {x : String}
    {e : PendingWrite} (he : c'.entryOf x κ = some e) : ∃ y ∈ rs', y.Holds x ∧ e = y.entry := by
  rw [hentry] at he
  split at he
  · next hx =>
    subst hx
    exact ⟨r', hswap.mem_new, hu, (Option.some.inj he).symm⟩
  · next hx =>
    obtain ⟨y, hy, hyx, hye⟩ := h.entered he
    rcases hswap.kept hy with rfl | hy'
    · exact absurd (honly x hyx) hx
    · exact ⟨y, hy', hyx, hye⟩

/-- Every request that is held has its entry after the update. -/
theorem Swap.found (hswap : Swap rs rs' r r') (h : Table n c κ rs answers) (hu : r'.Holds u)
    (hentry : ∀ x, c'.entryOf x κ = if x = u then some r'.entry else c.entryOf x κ) :
    ∀ x ∈ rs', ∀ w, x.Holds w → ∃ e, c'.entryOf w κ = some e := by
  refine hswap.forall_new (fun x hx w hw => ?_) fun w hw => ?_
  · rw [hentry]
    split
    · exact ⟨_, rfl⟩
    · exact h.found hx hw
  · obtain rfl := Option.some.inj (hu.2.symm.trans hw.2)
    rw [hentry, if_pos rfl]
    exact ⟨_, rfl⟩

/-- Completions are taken from the strand and none are put there, so no request has too many. -/
theorem Swap.counted (hswap : Swap rs rs' r r') (h : Table n c κ rs answers) (hu : r'.Holds u)
    (harrived : ∀ x, c'.arrived x κ ≤ c.arrived x κ)
    (hself : r'.handled + c'.arrived u κ ≤ received answers u) :
    ∀ x ∈ rs', ∀ w, x.Holds w → x.handled + c'.arrived w κ ≤ received answers w := by
  refine hswap.forall_new (fun x hx w hw => ?_) fun w hw => ?_
  · exact Nat.le_trans (Nat.add_le_add_left (harrived w) x.handled) (h.counted hx hw)
  · obtain rfl := Option.some.inj (hu.2.symm.trans hw.2)
    exact hself

/-- **One request is updated.** It holds `u` and no other uuid before, so the table changes at
`u` only, and what the other requests say of it stays true. -/
theorem swap_request (h : Table n c κ rs answers) (hswap : Swap rs rs' r r') (hu : r'.Holds u)
    (honly : ∀ w, r.Holds w → w = u) (hstarts : c'.startsOf κ = rs'.filterMap Request.slip)
    (hentry : ∀ x, c'.entryOf x κ = if x = u then some r'.entry else c.entryOf x κ)
    (harrived : ∀ x, c'.arrived x κ ≤ c.arrived x κ)
    (hself : r'.handled + c'.arrived u κ ≤ received answers u)
    (hapart : ∀ x ∈ rs, r.Apart x → r'.Apart x) (hserved : r'.Served κ n) :
    Table n c' κ rs' answers where
  starts := hstarts
  entered he := hswap.entered h hu honly hentry he
  found hx hw := hswap.found h hu hentry _ hx _ hw
  few x := Nat.le_trans (harrived x) (h.few x)
  counted hx hw := hswap.counted h hu harrived hself _ hx _ hw
  distinct := hswap.distinct h.distinct hapart
  quiet := hswap.forall_new h.quiet fun hstarted => absurd (hu.1.symm.trans hstarted) (by decide)
  many hget := hswap.forall_new (h.many hget) fun hstarted =>
    absurd (hu.1.symm.trans hstarted) (by decide)
  served := hswap.forall_new h.served hserved

end

/-- The task at the head of the strand is that of the oldest request that waits. -/
theorem swap_enter (h : Table n c κ rs answers) {ask : Ask} {v : Option String} {u : String}
    {rest : List (Ask × Option String)} {reps : List (Client × ClientMessage)}
    (hhead : c.startsOf κ = (ask, v) :: rest) (hv : v = none ∨ v = some u) :
    ∃ r, r.ask = ask ∧ r.uuid = v ∧ r.started = false ∧
      rest = (rs.replaceF (Request.enter u reps)).filterMap Request.slip ∧
      Swap rs (rs.replaceF (Request.enter u reps)) r
        { r with uuid := some u, started := true, replies := r.replies ++ reps } := by
  obtain ⟨l₁, r, l₂, rfl, hl₁, hr, hl₂⟩ := List.filterMap_eq_cons_iff.mp (h.starts.symm.trans hhead)
  have hwaits : r.started = false ∧ r.ask = ask ∧ r.uuid = v := by
    unfold Request.slip at hr
    split at hr
    · cases hr
    · next hstarted =>
      cases hr
      exact ⟨Bool.not_eq_true _ ▸ hstarted, rfl, rfl⟩
  obtain ⟨hstarted, hask, huuid⟩ := hwaits
  -- those ahead have started already
  have hnone : ∀ x ∈ l₁, Request.enter u reps x = none := by
    intro x hx
    have hslip := hl₁ x hx
    unfold Request.slip at hslip
    split at hslip
    · next hx => simp [Request.enter, hx]
    · cases hslip
  have hsome : Request.enter u reps r =
      some { r with uuid := some u, started := true, replies := r.replies ++ reps } := by
    rw [Request.enter, if_pos ⟨hstarted, huuid ▸ hv⟩]
  have hreplace := @replaceF_append _ _ l₂ _ _ hnone hsome
  refine ⟨r, hask, huuid, hstarted, ?_, l₁, l₂, rfl, hreplace⟩
  rw [hreplace, List.filterMap_append, List.filterMap_eq_nil_iff.mpr hl₁, List.nil_append,
    List.filterMap_cons_none (by simp [Request.slip])]
  exact hl₂.symm

/-- A request that is entered is answered if its consistency is 1. A get with consistency 1 is
answered before and never entered. -/
theorem served_enter {r : Request} {u : String} {reps : List (Client × ClientMessage)}
    (hserved : r.Served κ n) (hwaits : r.started = false) (hquiet : r.handled = 0)
    (hget : κ = .get → r.ask.consistency ≠ 1)
    (hone : r.ask.consistency = 1 → κ = .put →
      ∃ msg, reps = [(r.ask.client, msg)] ∧ r.ask.AnsweredBy κ msg)
    (hmany : r.ask.consistency ≠ 1 → reps = []) :
    Request.Served κ n
      { r with uuid := some u, started := true, replies := r.replies ++ reps } := by
  have hsilent : r.replies = [] := hserved.2 fun hdue => by
    rw [Request.Due, hwaits] at hdue
    exact absurd hdue.1 (by decide)
  simp only [Request.Served, Request.Due, hsilent, hquiet, List.nil_append]
  by_cases hc : r.ask.consistency = 1
  · have hput : κ = .put := Kind.eq_put fun hκ => hget hκ hc
    refine ⟨fun _ => hone hc hput, fun hdue => absurd ?_ hdue⟩
    rw [hc]
    exact ⟨trivial, Nat.le_refl 1, Nat.le_add_left 1 n, Nat.le_refl 0⟩
  · -- with no completion handled only consistency 1 is due
    refine ⟨fun hdue => absurd ?_ hc, fun _ => hmany hc⟩
    obtain ⟨_, hpos, _, hle⟩ := hdue
    apply UInt32.toNat.inj
    show r.ask.consistency.toNat = 1
    omega

/-- **A request is entered**: with consistency 1 it is answered, otherwise it is not. -/
theorem enter_oldest (h : Table n c κ rs answers) {ask : Ask} {v : Option String} {u : String}
    {reps : List (Client × ClientMessage)} (hhead : c.startsOf κ = (ask, v) :: c'.startsOf κ)
    (hv : (v = none ∧ ∀ r ∈ rs, r.uuid ≠ some u) ∨ v = some u)
    (hentry : (∀ e, c.entryOf u κ ≠ some e) → ∀ x, c'.entryOf x κ = if x = u
      then some ⟨ask.stream, ask.key, ask.consistency - 1, ask.client⟩ else c.entryOf x κ)
    (harrived : ∀ x, c'.arrived x κ = c.arrived x κ)
    (hone : ask.consistency = 1 → κ = .put →
      ∃ msg, reps = [(ask.client, msg)] ∧ ask.AnsweredBy κ msg)
    (hmany : ask.consistency ≠ 1 → reps = []) :
    Table n c' κ (rs.replaceF (Request.enter u reps)) answers := by
  -- the oldest request that waits, with its task
  obtain ⟨r, rfl, rfl, hwaits, hrest, hswap⟩ := h.swap_enter hhead (hv.imp And.left id)
  have hr := hswap.mem_old
  have hidle : ∀ w, ¬ r.Holds w := fun w hholds =>
    absurd (hwaits.symm.trans hholds.1) (by decide)
  -- nobody else is entered under the uuid
  have hfree : ∀ x ∈ rs, ¬ x.Holds u := by
    intro x hx hholds
    rcases hv with ⟨_, hfresh⟩ | hu
    · exact hfresh x hx hholds.2
    · obtain rfl := Request.holds_unique h.distinct hx hr hholds.2 hu
      exact hidle u hholds
  have hnone : ∀ e, c.entryOf u κ ≠ some e := by
    intro e he
    obtain ⟨x, hx, hholds, _⟩ := h.entered he
    exact hfree x hx hholds
  have hquiet := h.quiet r hr hwaits
  refine h.swap_request hswap ⟨rfl, rfl⟩ (fun w hw => absurd hw (hidle w)) hrest (fun x => ?_)
    (fun x => Nat.le_of_eq (harrived x)) ?_ (fun x hx hapart w hw hxw => ?_)
    (served_enter (h.served r hr) hwaits hquiet (fun hget => h.many hget r hr hwaits) hone hmany)
  · rw [hentry hnone, Request.entry, hquiet, show UInt32.ofNat 0 = 0 from rfl, UInt32.sub_zero]
  · show r.handled + _ ≤ _
    rw [hquiet, Nat.zero_add, harrived]
    exact h.few u
  · -- the uuid is fresh or it is the one that the request had already
    obtain rfl := Option.some.inj hw
    rcases hv with ⟨_, hfresh⟩ | hu
    · exact hfresh x hx hxw
    · exact hapart u hu hxw

/-- A counter that has gone down `k` times in 32 bits is at 1 only the first time round. -/
theorem counter_eq_one_iff {x : UInt32} {k : ℕ} (hk : k + 2 < 2 ^ 32) :
    x - 1 - UInt32.ofNat k = 1 ↔ x.toNat = k + 2 := by
  -- below `2 ^ 32` steps the counter wraps at most once
  have hlt := x.toNat_lt
  constructor
  · intro h
    have hnat := congrArg UInt32.toNat h
    simp only [UInt32.toNat_sub, UInt32.toNat_ofNat', UInt32.toNat_one] at hnat
    omega
  · intro h
    apply UInt32.toNat.inj
    simp only [UInt32.toNat_sub, UInt32.toNat_ofNat', UInt32.toNat_one]
    omega

/-- A completion is for the one request that is entered under its uuid. -/
theorem swap_count (h : Table n c κ rs answers) {u : String} {e : PendingWrite}
    {reps : List (Client × ClientMessage)} (hfound : c.entryOf u κ = some e) :
    ∃ r, r.Holds u ∧ e = r.entry ∧ Swap rs (rs.replaceF (Request.count u reps)) r
      { r with handled := r.handled + 1, replies := r.replies ++ reps } := by
  obtain ⟨r, hr, hholds, hentry⟩ := h.entered hfound
  have hsome : Request.count u reps r =
      some { r with handled := r.handled + 1, replies := r.replies ++ reps } := by
    rw [Request.count, if_pos (show _ ∧ _ from hholds)]
  -- `replaceF` finds the first match, and there is only one
  obtain ⟨x, x', l₁, l₂, _, hx, hrs, hreplace⟩ := List.exists_of_replaceF hr hsome
  have hcount : x.Holds u := by
    unfold Request.count at hx
    split at hx
    · next hcond => exact hcond
    · cases hx
  have hmem : x ∈ rs := by
    rw [hrs]
    exact List.mem_append_right _ List.mem_cons_self
  obtain rfl := Request.holds_unique h.distinct hr hmem hholds.2 hcount.2
  obtain rfl := Option.some.inj (hsome.symm.trans hx)
  exact ⟨r, hholds, hentry, l₁, l₂, hrs, hreplace⟩

/-- A completion that does not find the counter at 1 makes no reply due. -/
theorem due_count {r : Request} {reps : List (Client × ClientMessage)}
    (hlate : r.ask.consistency.toNat ≠ r.handled + 2) :
    Request.Due n { r with handled := r.handled + 1, replies := r.replies ++ reps } ↔
      r.Due n := by
  constructor
  · rintro ⟨hstarted, hpos, hle, hcount⟩
    simp only at hpos hcount
    exact ⟨hstarted, hpos, hle, by omega⟩
  · rintro ⟨hstarted, hpos, hle, hcount⟩
    exact ⟨hstarted, hpos, hle, Nat.le_succ_of_le hcount⟩

/-- The completion that finds the counter at 1 makes the reply due and sends it. -/
theorem served_count {r : Request} {reps : List (Client × ClientMessage)} (hn : n < 2 ^ 31)
    (hserved : r.Served κ n) (hstarted : r.started = true) (hbound : r.handled + 1 ≤ n)
    (hone : r.entry.consistency = 1 → ∃ msg, reps = [(r.ask.client, msg)] ∧
      r.ask.AnsweredBy κ msg)
    (hmany : r.entry.consistency ≠ 1 → reps = []) :
    Request.Served κ n { r with handled := r.handled + 1, replies := r.replies ++ reps } := by
  have hlast : r.entry.consistency = 1 ↔ r.ask.consistency.toNat = r.handled + 2 :=
    counter_eq_one_iff (by omega)
  by_cases hc : r.ask.consistency.toNat = r.handled + 2
  · -- the reply was not due before and is now
    obtain ⟨msg, hreps, hmsg⟩ := hone (hlast.mpr hc)
    have hsilent : r.replies = [] := hserved.2 fun hdue => by
      obtain ⟨_, _, _, hle⟩ := hdue
      omega
    refine ⟨fun _ => ⟨msg, ?_, hmsg⟩, fun hdue => absurd ?_ hdue⟩
    · show r.replies ++ reps = _
      rw [hsilent, hreps]
      rfl
    · refine ⟨hstarted, ?_, ?_, ?_⟩
      · show 1 ≤ r.ask.consistency.toNat
        omega
      · show r.ask.consistency.toNat ≤ n + 1
        omega
      · show r.ask.consistency.toNat - 1 ≤ r.handled + 1
        omega
  · have hdue := @due_count n r reps hc
    have hreps := hmany (mt hlast.mp hc)
    refine ⟨fun h => ?_, fun h => ?_⟩
    · rw [hreps, List.append_nil]
      exact hserved.1 (hdue.mp h)
    · rw [hreps, List.append_nil]
      exact hserved.2 (mt hdue.mpr h)

/-- **A completion is handled**: the one that makes the reply due sends it. -/
theorem count_completion (h : Table n c κ rs answers) {u : String} {e : PendingWrite}
    {reps : List (Client × ClientMessage)} (hn : n < 2 ^ 31) (hcap : received answers u ≤ n)
    (hfound : c.entryOf u κ = some e) (hstarts : c'.startsOf κ = c.startsOf κ)
    (hentry : ∀ x, c'.entryOf x κ = if x = u
      then some { e with consistency := e.consistency - 1 } else c.entryOf x κ)
    (harrived : ∀ x, c.arrived x κ = c'.arrived x κ + if x = u then 1 else 0)
    (hone : e.consistency = 1 → ∃ msg, reps = [(e.requestor, msg)] ∧
      ∀ ask : Ask, ask.stream = e.stream → ask.key = e.key → ask.AnsweredBy κ msg)
    (hmany : e.consistency ≠ 1 → reps = []) :
    Table n c' κ (rs.replaceF (Request.count u reps)) answers := by
  obtain ⟨r, hholds, rfl, hswap⟩ := h.swap_count hfound
  have hr := hswap.mem_old
  -- one of the answers received is the completion itself
  have hcounted := h.counted hr hholds
  have hself := harrived u
  rw [if_pos rfl] at hself
  have hanswer : r.entry.consistency = 1 →
      ∃ msg, reps = [(r.ask.client, msg)] ∧ r.ask.AnsweredBy κ msg := by
    intro hlast
    obtain ⟨msg, hreps, hmsg⟩ := hone hlast
    exact ⟨msg, hreps, hmsg r.ask rfl rfl⟩
  refine h.swap_request hswap hholds
    (fun w hw => Option.some.inj (hw.2.symm.trans hholds.2)) ?_ (fun x => ?_) (fun x => ?_) ?_
    (fun x _ hapart => hapart)
    (served_count hn (h.served r hr) hholds.1 (by omega) hanswer hmany)
  · rw [hstarts, h.starts]
    obtain ⟨l₁, l₂, hrs, hrs'⟩ := hswap
    rw [hrs', hrs]
    simp [Request.slip, hholds.1, List.filterMap_append]
  · rw [hentry]
    simp only [Request.entry, sub_ofNat_succ]
  · rw [harrived]
    exact Nat.le_add_right _ _
  · show r.handled + 1 + _ ≤ _
    omega

end Table

end Cs457.Kv
