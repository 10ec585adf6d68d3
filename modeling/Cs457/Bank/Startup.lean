import Cs457.Bank.Topology

/-!
# Bank — start-up

The controller connects to every branch and sends it the same InitBranch. A branch that has
handled it connects to the peers in its window, enters each connection that comes up in
`d_channels` and introduces itself on it; the other end enters the connection when it
processes the Hello. Branches that are still waiting for their InitBranch already accept
connections and process Hellos.

* **`Cluster.starting`** — the cluster in which every branch has its InitBranch waiting.
* **`Forward`** — a step loses no connection attempt, task, entry or Hello without the next
  stage of the introduction taking its place.
* **`Sound`** — everything on the way belongs to a connection that a window asks for.
* **`Booting`** — the invariant of start-up runs, and its step lemma.
* **`Booting.complete`** — once nothing of the introduction is on the way, every branch has
  entered exactly its known peers.
-/

namespace Cs457.Bank

open Branch Transition

/-! ## The controller -/

/-- The controller's list of branches and the money it was started with. -/
structure Controller where
  peers : List PeerInfo
  balance : UInt64

/-- `do_init_branches`: the message every branch gets. The list has fewer than `2 ^ 64`
entries, so the quotient is that of the code's `uint64_t`s; without an entry the process dies of
the division. -/
def Controller.doInitBranches (ctl : Controller) : Option InitBranch :=
  if ctl.peers = [] then none
  else some
    { balance := UInt64.ofNat (ctl.balance.toNat / ctl.peers.length)
      allBranches := ctl.peers.map fun peer => ⟨peer.name, peer.ip, peer.port.toUInt64⟩ }

/-- The branches have been started and the controller's connections with the InitBranch
messages are on their way to them. -/
def Cluster.starting (msg : InitBranch) : Cluster where
  branch p := { name := p }
  queue ch := match ch with
    | ⟨.controller p, .acceptor⟩ => if p ∈ msg.names then [.initBranch msg] else []
    | _ => []
  unaccepted := msg.names.map .controller

/-- The steps of a start-up run: every step of the branches, and the controller may ask for
snapshots. -/
def StartupStep (_ : Cluster) : Action → Prop
  | .controllerSend _ (.initSnapshot _) => True
  | .controllerSend _ (.retrieveSnapshot _) => True
  | .controllerSend _ _ => False
  | _ => True

instance (c : Cluster) : DecidablePred (StartupStep c) := fun a => by
  unfold StartupStep
  split <;> infer_instance

/-! ## What a step keeps -/

/-- What has replaced a task that has run. -/
def Performed (c c' : Cluster) (p : Name) : Task → Prop
  | .connected name ch => name ∈ (c'.branch p).channels ∧
      .hello (c.branch p).name ∈ c'.queue ch.remote
  | .hello name _ => name ∈ (c'.branch p).channels
  | _ => True

/-- Between `c` and `c'` each stage of an introduction stays or is replaced by the next. -/
structure Forward (c c' : Cluster) : Prop where
  connecting : ∀ e ∈ c.connecting, e ∈ c'.connecting ∨
    ∃ p, e.2.host = some p ∧ .connected e.1.name e.2 ∈ (c'.branch p).strand
  tasks : ∀ p, ∀ t ∈ (c.branch p).strand, t ∈ (c'.branch p).strand ∨ Performed c c' p t
  channels : ∀ p q, q ∈ (c.branch p).channels → q ∈ (c'.branch p).channels
  hellos : ∀ ch name, .hello name ∈ c.queue ch → .hello name ∈ c'.queue ch ∨
    ∃ p ci, ch.host = some p ∧ .hello name ci ∈ (c'.branch p).strand

/-- A step that changes one branch, which loses neither a task nor an entry. -/
theorem Forward.of_branch {c c' : Cluster} {p : Name}
    (hother : ∀ x, x ≠ p → c'.branch x = c.branch x)
    (htasks : ∀ t ∈ (c.branch p).strand, t ∈ (c'.branch p).strand)
    (hchannels : ∀ q, q ∈ (c.branch p).channels → q ∈ (c'.branch p).channels)
    (hconn : ∀ e ∈ c.connecting, e ∈ c'.connecting ∨
      ∃ p, e.2.host = some p ∧ .connected e.1.name e.2 ∈ (c'.branch p).strand)
    (hhellos : ∀ ch name, .hello name ∈ c.queue ch → .hello name ∈ c'.queue ch ∨
      ∃ p ci, ch.host = some p ∧ .hello name ci ∈ (c'.branch p).strand) : Forward c c' where
  connecting := hconn
  tasks x t ht := by
    by_cases hx : x = p
    · subst hx
      exact Or.inl (htasks t ht)
    · rw [hother x hx]
      exact Or.inl ht
  channels x q hq := by
    by_cases hx : x = p
    · subst hx
      exact hchannels q hq
    · rw [hother x hx]
      exact hq
  hellos := hhellos

/-- InitBranch sets the money and the peers; what the branch has on its strand and its channels
stays. -/
theorem initBranchHandler_keeps {b : Branch} {msg : InitBranch} {r : Branch × List Effect}
    (h : b.initBranchHandler msg = .ok r) :
    r.1.name = b.name ∧ r.1.channels = b.channels ∧ r.1.strand = b.strand ∧
      r.1.money = msg.balance ∧ ∀ ch, Cluster.sentTo r.2 ch = [] := by
  unfold initBranchHandler at h
  simp only at h
  split at h
  · cases h
  · obtain rfl := Except.ok.inj h
    refine ⟨rfl, rfl, rfl, rfl, fun ch => ?_⟩
    rw [Cluster.sentTo, List.filterMap_map, List.filterMap_eq_nil_iff]
    exact fun _ _ => rfl

/-- A delivery loses no stage: a Hello that is handled is replaced by its task. -/
theorem deliver_forward {c c' : Cluster} {ch : Channel} (h : c.deliver ch = some c') :
    Forward c c' := by
  obtain ⟨p, m, rest, r, hhost, hqueue, _, hr, rfl⟩ := Cluster.deliver_eq_some h
  set c₁ : Cluster := { c with queue := fun x => if x = ch then rest else c.queue x } with hc₁
  have hkeep : r.1.channels = (c.branch p).channels ∧
      ∀ t ∈ (c.branch p).strand, t ∈ r.1.strand := by
    rcases messageHandler_ok hr with ⟨_, _, hinit⟩ | ⟨_, _, _, hch, _, hstrand, _⟩
    · obtain ⟨_, hch, hstrand, _, _⟩ := initBranchHandler_keeps hinit
      exact ⟨hch, fun t ht => hstrand ▸ ht⟩
    · exact ⟨hch, fun t ht => hstrand ▸ List.mem_append_left _ ht⟩
  refine .of_branch (p := p) (fun x hx => Cluster.update_ne c₁ r hx) (fun t ht => ?_)
    (fun q hq => ?_) (fun e he => Or.inl ?_) (fun ch' name hname => ?_)
  · rw [Cluster.update_self]
    exact hkeep.2 t ht
  · rw [Cluster.update_self, hkeep.1]
    exact hq
  · rw [Cluster.update_connecting]
    exact List.mem_append_left _ he
  · by_cases hch : ch' = ch
    · subst hch
      rw [hqueue] at hname
      rcases List.mem_cons.mp hname with rfl | hname
      · -- the Hello itself is handled, and its task posted
        refine Or.inr ⟨p, ⟨(c.branch p).handlerName ch', ch'⟩, hhost, ?_⟩
        rw [Cluster.update_self]
        obtain rfl := Except.ok.inj hr
        exact List.mem_append_right _ List.mem_cons_self
      · refine Or.inl ?_
        rw [Cluster.update_queue, hc₁]
        exact List.mem_append_left _ (by simpa using hname)
    · refine Or.inl ?_
      rw [Cluster.update_queue, hc₁]
      exact List.mem_append_left _ (by simpa [hch] using hname)

/-- Nor does a task: what it does is the next stage. -/
theorem runTask_forward {c c' : Cluster} {p : Name} (h : c.runTask p = some c') :
    Forward c c' := by
  obtain ⟨t, rest, r, hstrand, hr, rfl⟩ := Cluster.runTask_eq_some h
  obtain ⟨hname, _, _, hrest, _, hchannels, _⟩ := perform_ok hr
  have hmono : ∀ q, q ∈ (c.branch p).channels → q ∈ r.1.channels := by
    intro q hq
    rw [hchannels]
    split
    · exact UnorderedMap.mem_emplace.mpr (Or.inr hq)
    · exact hq
  refine ⟨fun e he => Or.inl ?_, fun x t' ht' => ?_, fun x q hq => ?_,
    fun ch name hm => Or.inl ?_⟩
  · rw [Cluster.update_connecting]
    exact List.mem_append_left _ he
  · by_cases hx : x = p
    · subst hx
      rw [hstrand] at ht'
      rcases List.mem_cons.mp ht' with rfl | ht'
      · refine Or.inr ?_
        -- the task that runs is gone, and what it was to bring about is there
        cases t' with
        | connected name ch =>
          obtain rfl := Except.ok.inj hr
          refine ⟨?_, ?_⟩
          · rw [Cluster.update_self]
            exact UnorderedMap.mem_emplace.mpr (Or.inl rfl)
          · rw [Cluster.update_queue]
            refine List.mem_append_right _ ?_
            simp [Cluster.sentTo, connectedTask]
        | hello name ci =>
          obtain rfl := Except.ok.inj hr
          show name ∈ _
          rw [Cluster.update_self]
          exact UnorderedMap.mem_emplace.mpr (Or.inl rfl)
        | _ => exact trivial
      · refine Or.inl ?_
        rw [Cluster.update_self, hrest]
        exact ht'
    · rw [Cluster.update_ne c r hx]
      exact Or.inl ht'
  · by_cases hx : x = p
    · subst hx
      rw [Cluster.update_self]
      exact hmono q hq
    · rw [Cluster.update_ne c r hx]
      exact hq
  · rw [Cluster.update_queue]
    exact List.mem_append_left _ hm

/-- **Every step goes forward.** -/
theorem step_forward {c c' : Cluster} {a : Action} (h : c.step a = some c') : Forward c c' := by
  cases a with
  | controllerSend p m =>
    obtain rfl := Option.some.inj h
    refine ⟨fun e he => Or.inl he, fun p t ht => Or.inl ht, fun p q hq => hq,
      fun ch name hm => Or.inl ?_⟩
    show _ ∈ (if ch = _ then c.queue ch ++ [m] else c.queue ch)
    split
    · exact List.mem_append_left _ hm
    · exact hm
  | connect peer ch =>
    obtain ⟨p, hhost, _, rfl⟩ := Cluster.connect_eq_some h
    have hself : ((c.setBranch p ((c.branch p).post (.connected peer.name ch))).branch p).strand
        = (c.branch p).strand ++ [.connected peer.name ch] := by
      rw [Cluster.setBranch_self]
      rfl
    refine .of_branch (p := p) (fun x hx => Cluster.setBranch_ne c _ hx) (fun t ht => ?_)
      (fun q hq => ?_) (fun e he => ?_) (fun _ _ hm => Or.inl hm)
    · rw [hself]
      exact List.mem_append_left _ ht
    · show q ∈ ((c.setBranch p _).branch p).channels
      rw [Cluster.setBranch_self]
      exact hq
    · -- the connection that comes up has its task posted
      by_cases heq : e = (peer, ch)
      · refine Or.inr ⟨p, by rw [heq]; exact hhost, ?_⟩
        rw [hself, heq]
        exact List.mem_append_right _ List.mem_cons_self
      · exact Or.inl ((List.mem_erase_of_ne heq).mpr he)
  | accept p k =>
    obtain ⟨_, _, rfl⟩ := Cluster.accept_eq_some h
    refine .of_branch (p := p) (fun x hx => Cluster.setBranch_ne c _ hx) (fun t ht => ?_)
      (fun q hq => ?_) (fun e he => Or.inl he) (fun _ _ hm => Or.inl hm)
    · show t ∈ ((c.setBranch p _).branch p).strand
      rw [Cluster.setBranch_self]
      exact ht
    · show q ∈ ((c.setBranch p _).branch p).channels
      rw [Cluster.setBranch_self]
      exact hq
  | deliver ch => exact deliver_forward h
  | runTask p => exact runTask_forward h
  | sendMoney p i attempts =>
    obtain ⟨e, toSend, _, _, rfl⟩ := Cluster.sendMoney_eq_some h
    refine .of_branch (p := p) (fun x hx => Cluster.update_ne c _ hx) (fun t ht => ?_)
      (fun q hq => ?_) (fun e he => Or.inl ?_) (fun _ _ hm => Or.inl ?_)
    · rw [Cluster.update_self]
      exact ht
    · rw [Cluster.update_self]
      exact hq
    · rw [Cluster.update_connecting]
      exact List.mem_append_left _ he
    · rw [Cluster.update_queue]
      exact List.mem_append_left _ hm

/-! ## The introduction of one pair -/

/-- The window of `o` asks for a connection to `a`. -/
def Opens (msg : InitBranch) (o a : Name) : Prop :=
  o ∈ msg.names ∧ a ∈ ({ name := o } : Branch).dialled msg

/-- How far the introduction of `o` to `a` has got. -/
def Greeting (c : Cluster) (o a : Name) : Prop :=
  (∃ e ∈ c.connecting, e.1.name = a ∧ e.2 = ⟨.peer o a, .opener⟩) ∨
  .connected a ⟨.peer o a, .opener⟩ ∈ (c.branch o).strand ∨
  a ∈ (c.branch o).channels ∧ (.hello o ∈ c.queue ⟨.peer o a, .acceptor⟩ ∨
    (∃ ci, .hello o ci ∈ (c.branch a).strand) ∨ o ∈ (c.branch a).channels)

/-- A greeting goes on from stage to stage: dialled, connected, Hello sent, Hello handled. -/
theorem Greeting.forward {c c' : Cluster} {o a : Name} (h : Greeting c o a) (hf : Forward c c')
    (hname : (c.branch o).name = o) : Greeting c' o a := by
  rcases h with ⟨e, he, rfl, hch⟩ | hconn | ⟨hentered, hhello⟩
  · rcases hf.connecting e he with hstays | ⟨p, hp, hposted⟩
    · exact Or.inl ⟨e, hstays, rfl, hch⟩
    · rw [hch] at hp hposted
      obtain rfl : o = p := Option.some.inj hp
      exact Or.inr (Or.inl hposted)
  · rcases hf.tasks o _ hconn with hstays | ⟨hentered, hsent⟩
    · exact Or.inr (Or.inl hstays)
    · rw [hname] at hsent
      exact Or.inr (Or.inr ⟨hentered, Or.inl hsent⟩)
  · refine Or.inr (Or.inr ⟨hf.channels o a hentered, ?_⟩)
    rcases hhello with hqueue | ⟨ci, hposted⟩ | hknown
    · rcases hf.hellos _ o hqueue with hstays | ⟨p, ci, hp, hposted⟩
      · exact Or.inl hstays
      · obtain rfl : a = p := Option.some.inj hp
        exact Or.inr (Or.inl ⟨ci, hposted⟩)
    · rcases hf.tasks a _ hposted with hstays | hknown
      · exact Or.inr (Or.inl ⟨ci, hstays⟩)
      · exact Or.inr (Or.inr hknown)
    · exact Or.inr (Or.inr (hf.channels a o hknown))

/-! ## What may be on the way -/

section Startup

variable {msg : InitBranch}

/-- `ch` is the end at `p` of the connection between `p` and `q`. -/
def LinkSound (msg : InitBranch) (p q : Name) (ch : Channel) : Prop :=
  (Opens msg p q ∧ ch = ⟨.peer p q, .opener⟩) ∨ (Opens msg q p ∧ ch = ⟨.peer q p, .acceptor⟩)

/-- A link has the same end points seen from the other side. -/
theorem LinkSound.remote {p q : Name} {ch : Channel} (h : LinkSound msg p q ch) :
    LinkSound msg q p ch.remote := by
  rcases h with ⟨ho, rfl⟩ | ⟨ho, rfl⟩
  · exact Or.inr ⟨ho, rfl⟩
  · exact Or.inl ⟨ho, rfl⟩

/-- A branch hosts the end at which it is greeted. -/
theorem LinkSound.host {p q : Name} {ch : Channel} (h : LinkSound msg p q ch) :
    ch.host = some p := by
  rcases h with ⟨_, rfl⟩ | ⟨_, rfl⟩ <;> rfl

def DialSound (msg : InitBranch) (e : PeerInfo × Channel) : Prop :=
  ∃ o, Opens msg o e.1.name ∧ e.2 = ⟨.peer o e.1.name, .opener⟩

def TaskSound (msg : InitBranch) (p : Name) : Task → Prop
  | .connected name ch => Opens msg p name ∧ ch = ⟨.peer p name, .opener⟩
  | .hello name ci => Opens msg name p ∧ ci.second = ⟨.peer name p, .acceptor⟩
  | _ => True

def MessageSound (msg : InitBranch) (ch : Channel) : BranchMessage → Prop
  | .initBranch m => m = msg ∧ ∃ p ∈ msg.names, ch = ⟨.controller p, .acceptor⟩
  | .hello name => ∃ a, Opens msg name a ∧ ch = ⟨.peer name a, .acceptor⟩
  | .transfer _ => ∃ p q, LinkSound msg p q ch
  | _ => True

structure Sound (msg : InitBranch) (c : Cluster) : Prop where
  named : ∀ p, (c.branch p).name = p
  connecting : ∀ e ∈ c.connecting, DialSound msg e
  tasks : ∀ p, ∀ t ∈ (c.branch p).strand, TaskSound msg p t
  messages : ∀ ch, ∀ m ∈ c.queue ch, MessageSound msg ch m
  channels : ∀ p q ch, (c.branch p).channels.lookup q = some ch → LinkSound msg p q ch

/-- One branch becomes `b`, messages are taken off the queues and put on them. -/
theorem Sound.replace {c c' : Cluster} (h : Sound msg c) {p : Name} {b : Branch}
    (hself : c'.branch p = b) (hother : ∀ x, x ≠ p → c'.branch x = c.branch x)
    (hname : b.name = (c.branch p).name)
    (htasks : ∀ t ∈ b.strand, t ∈ (c.branch p).strand ∨ TaskSound msg p t)
    (hchannels : ∀ q ch, b.channels.lookup q = some ch →
      (c.branch p).channels.lookup q = some ch ∨ LinkSound msg p q ch)
    (hconn : ∀ e ∈ c'.connecting, e ∈ c.connecting ∨ DialSound msg e)
    (hmsgs : ∀ ch, ∀ m ∈ c'.queue ch, m ∈ c.queue ch ∨ MessageSound msg ch m) :
    Sound msg c' := by
  subst hself
  refine ⟨fun x => ?_, fun e he => (hconn e he).elim (h.connecting e) id, fun x t ht => ?_,
    fun ch m hm => (hmsgs ch m hm).elim (h.messages ch m) id, fun x q ch hl => ?_⟩
  all_goals by_cases hx : x = p
  · rw [hx, hname, h.named p]
  · rw [hother x hx, h.named x]
  · subst hx
    exact (htasks t ht).elim (h.tasks x t) id
  · rw [hother x hx] at ht
    exact h.tasks x t ht
  · subst hx
    exact (hchannels q ch hl).elim (h.channels x q ch) id
  · rw [hother x hx] at hl
    exact h.channels x q ch hl

/-- What is left in the queues has been there. -/
theorem mem_queue_of_popped {c : Cluster} {ch : Channel} {m : BranchMessage}
    {rest : List BranchMessage} (hqueue : c.queue ch = m :: rest) :
    ∀ ch', ∀ m' ∈ (if ch' = ch then rest else c.queue ch'), m' ∈ c.queue ch' := by
  intro ch' m' hm'
  split at hm'
  · next heq =>
    rw [heq, hqueue]
    exact List.mem_cons_of_mem m hm'
  · exact hm'

/-- Handling any message but an InitBranch. -/
theorem Sound.handle {c : Cluster} (h : Sound msg c) {p : Name} {ch : Channel} {m : BranchMessage}
    {rest : List BranchMessage} {r : Branch × List Effect} (hhost : ch.host = some p)
    (hqueue : c.queue ch = m :: rest) (heffects : r.2 = []) (hname : r.1.name = (c.branch p).name)
    (hchannels : r.1.channels = (c.branch p).channels)
    (hstrand : r.1.strand
      = (c.branch p).strand ++ posted m ⟨(c.branch p).handlerName ch, ch⟩) :
    Sound msg
      (({ c with queue := fun x => if x = ch then rest else c.queue x } : Cluster).update p r) := by
  set c₁ : Cluster := { c with queue := fun x => if x = ch then rest else c.queue x } with hc₁
  refine h.replace (Cluster.update_self c₁ p r) (fun x hx => Cluster.update_ne c₁ r hx) hname
    (fun t ht => ?_) (fun q ch' hl => Or.inl (hchannels ▸ hl)) (fun e he => Or.inl ?_)
    (fun ch' m' hm' => Or.inl ?_)
  · rw [hstrand] at ht
    refine (List.mem_append.mp ht).imp_right fun ht' => ?_
    have hm := h.messages ch m (hqueue ▸ List.mem_cons_self)
    -- A message posts at most one task; only that of a Hello names a channel.
    cases m with
    | hello name =>
      obtain ⟨a, ho, rfl⟩ := hm
      obtain rfl : a = p := Option.some.inj hhost
      obtain rfl := List.mem_singleton.mp ht'
      exact ⟨ho, rfl⟩
    | initSnapshot id =>
      obtain rfl := List.mem_singleton.mp ht'
      exact trivial
    | marker id =>
      obtain rfl := List.mem_singleton.mp ht'
      exact trivial
    | retrieveSnapshot id =>
      obtain rfl := List.mem_singleton.mp ht'
      exact trivial
    | _ => cases ht'
  · rw [Cluster.update_connecting, heffects] at he
    simpa [Cluster.opened] using he
  · rw [Cluster.update_queue, heffects] at hm'
    refine mem_queue_of_popped hqueue ch' m' ?_
    simpa [Cluster.sentTo, hc₁] using hm'

/-- A task that runs leaves sound tasks and sends sound messages. -/
theorem Sound.perform {c : Cluster} (h : Sound msg c) {p : Name} {t : Task} {rest : List Task}
    {r : Branch × List Effect} (hstrand : (c.branch p).strand = t :: rest)
    (hr : ({ c.branch p with strand := rest } : Branch).perform t = .ok r) :
    Sound msg (c.update p r) := by
  obtain ⟨hname, _, _, hrest, hopened, hchannels, hsent⟩ := perform_ok hr
  have ht := h.tasks p t (hstrand ▸ List.mem_cons_self)
  refine h.replace (Cluster.update_self c p r) (fun x hx => Cluster.update_ne c r hx) hname
    (fun t' ht' => Or.inl ?_) (fun q ch hl => ?_) (fun e he => Or.inl ?_) (fun ch m hm => ?_)
  · rw [hrest] at ht'
    exact hstrand ▸ List.mem_cons_of_mem t ht'
  · rw [hchannels] at hl
    -- `emplace` keeps an entry that is already there, else it adds the new channel.
    have hentry : ∀ name x, LinkSound msg p name x →
        ((c.branch p).channels.emplace name x).lookup q = some ch →
        (c.branch p).channels.lookup q = some ch ∨ LinkSound msg p q ch := by
      intro name x hx hlook
      rcases UnorderedMap.of_lookup_emplace hlook with ⟨rfl, rfl⟩ | hold
      · exact Or.inr hx
      · exact Or.inl hold
    cases t with
    | connected name x => exact hentry name x (Or.inl ht) hl
    | hello name ci => exact hentry name ci.second (Or.inr ht) hl
    | _ => exact Or.inl hl
  · rw [Cluster.update_connecting, hopened, List.append_nil] at he
    exact he
  · rw [Cluster.update_queue] at hm
    refine (List.mem_append.mp hm).imp_right fun hm' => ?_
    -- Markers and reports carry no name; a Hello carries the name of the branch that opened the
    -- channel.
    rcases hsent ch m hm' with ⟨id, rfl⟩ | ⟨s, rfl⟩ | ⟨name, x, rfl, rfl, rfl⟩
    · exact trivial
    · exact trivial
    · obtain ⟨ho, rfl⟩ := ht
      exact ⟨name, by rw [h.named p]; exact ho, by rw [h.named p]; rfl⟩

/-- The timer sends one Transfer or nothing. -/
theorem sent_by_timer {x ch : Channel} {a : UInt64} {m : BranchMessage}
    (h : m ∈ Cluster.sentTo (if a > 0 then [.send x (.transfer a)] else []) ch) :
    ch = x.remote ∧ m = .transfer a := by
  split at h
  · simp only [Cluster.sentTo, List.mem_filterMap, List.mem_singleton] at h
    obtain ⟨e, rfl, he⟩ := h
    simp only [Option.ite_none_right_eq_some, Option.some.injEq] at he
    exact ⟨he.1.symm, he.2.symm⟩
  · cases h

/-- Sending money leaves the channels alone. -/
theorem Sound.sendMoney {c c' : Cluster} (h : Sound msg c) {p : Name} {i : ℕ}
    {attempts : List Attempt} (hc : c.sendMoney p i attempts = some c') : Sound msg c' := by
  obtain ⟨e, toSend, he, _, rfl⟩ := Cluster.sendMoney_eq_some hc
  have hlink := (h.channels p e.1 e.2 (UnorderedMap.lookup_of_mem_entries he)).remote
  refine h.replace (Cluster.update_self c p _) (fun x hx => Cluster.update_ne c _ hx) rfl
    (fun t ht => Or.inl ht) (fun q ch hl => Or.inl hl) (fun x hx => Or.inl ?_) (fun ch m hm => ?_)
  · rw [Cluster.update_connecting] at hx
    split at hx <;> simpa [Cluster.opened] using hx
  · rw [Cluster.update_queue] at hm
    refine (List.mem_append.mp hm).imp_right fun hm' => ?_
    obtain ⟨rfl, rfl⟩ := sent_by_timer hm'
    exact ⟨e.1, p, hlink⟩

/-- A connect that completes posts the task of its own greeting. -/
theorem Sound.connect {c c' : Cluster} (h : Sound msg c) {peer : PeerInfo} {ch : Channel}
    (hc : c.connect peer ch = some c') : Sound msg c' := by
  obtain ⟨p, hhost, hmem, rfl⟩ := Cluster.connect_eq_some hc
  refine h.replace (p := p) (b := (c.branch p).post (.connected peer.name ch))
    (Cluster.setBranch_self c p _) (fun x hx => Cluster.setBranch_ne c _ hx) rfl
    (fun t ht => ?_) (fun q ch hl => Or.inl hl) (fun x hx => Or.inl (List.mem_of_mem_erase hx))
    (fun _ _ hm => Or.inl hm)
  refine (List.mem_append.mp ht).imp_right fun ht' => ?_
  obtain rfl := List.mem_singleton.mp ht'
  obtain ⟨o, ho, hch⟩ := h.connecting _ hmem
  simp only at ho hch
  rw [hch] at hhost
  obtain rfl : o = p := Option.some.inj hhost
  exact ⟨ho, hch⟩

/-! ## The invariant of start-up runs -/

/-- The InitBranch messages on their way to `p`. -/
def waitingInits (msg : InitBranch) (c : Cluster) (p : Name) : ℕ :=
  (c.queue ⟨.controller p, .acceptor⟩).count (.initBranch msg)

/-- `p` has not handled its InitBranch. -/
def Waiting (msg : InitBranch) (c : Cluster) (p : Name) : Prop :=
  waitingInits msg c p = 1 ∧ (c.branch p).knownPeers = []

/-- `p` has handled its InitBranch: it knows the others and is introduced, or about to be, to
every branch of its window. -/
structure Ready (msg : InitBranch) (c : Cluster) (p : Name) : Prop where
  inits : waitingInits msg c p = 0
  peers : ∃ o, msg.names[o]? = some p ∧ (c.branch p).knownPeers = msg.peers.eraseIdx o
  greets : ∀ a, Opens msg p a → Greeting c p a

structure Booting (msg : InitBranch) (c : Cluster) : Prop extends Sound msg c where
  roll : ∀ p ∈ msg.names, Waiting msg c p ∨ Ready msg c p

/-- A step of the start-up: no branch goes back to waiting, and those that are ready stay so. -/
theorem Booting.advance {c c' : Cluster} (h : Booting msg c) (hs : Sound msg c')
    (hf : Forward c c')
    (hkeep : ∀ p ∈ msg.names, (waitingInits msg c' p = waitingInits msg c p ∧
      (c'.branch p).knownPeers = (c.branch p).knownPeers) ∨ Ready msg c' p) :
    Booting msg c' := by
  refine ⟨hs, fun p hp => ?_⟩
  rcases hkeep p hp with ⟨hinits, hpeers⟩ | hready
  · rw [Waiting, hinits, hpeers]
    refine (h.roll p hp).imp id fun hready => ?_
    exact ⟨hinits.trans hready.inits, hpeers ▸ hready.peers,
      fun a ha => (hready.greets a ha).forward hf (h.named p)⟩
  · exact Or.inr hready

/-- Every branch starts out waiting. -/
theorem Booting.starting (msg : InitBranch) : Booting msg (Cluster.starting msg) where
  named _ := rfl
  connecting e he := by cases he
  tasks p t ht := by cases ht
  messages ch m hm := by
    simp only [Cluster.starting] at hm
    split at hm
    · next p =>
      split at hm
      · next hp =>
        obtain rfl := List.mem_singleton.mp hm
        exact ⟨rfl, p, hp, rfl⟩
      · cases hm
    · cases hm
  channels p q ch hl := by cases hl
  roll p hp := by
    refine Or.inl ⟨?_, rfl⟩
    simp [waitingInits, Cluster.starting, hp]

/-- Nothing a branch sends is an InitBranch. -/
theorem waitingInits_update {c : Cluster} {p : Name} {r : Branch × List Effect}
    (hsent : ∀ ch, .initBranch msg ∉ Cluster.sentTo r.2 ch) (q : Name) :
    waitingInits msg (c.update p r) q = waitingInits msg c q := by
  rw [waitingInits, waitingInits, Cluster.update_queue, List.count_append,
    List.count_eq_zero.mpr (hsent _), Nat.add_zero]

/-- Taking off another message leaves the InitBranch messages where they are. -/
theorem waitingInits_pop {c : Cluster} {ch : Channel} {m : BranchMessage}
    {rest : List BranchMessage} (hqueue : c.queue ch = m :: rest) (hne : m ≠ .initBranch msg)
    (q : Name) :
    waitingInits msg { c with queue := fun x => if x = ch then rest else c.queue x } q
      = waitingInits msg c q := by
  simp only [waitingInits]
  split
  · next heq => rw [heq, hqueue, List.count_cons_of_ne hne]
  · rfl

/-- **The InitBranch of `p` is handled.** It was the only one on its way, so `p` knew nobody;
every connection of its window is now being opened. -/
theorem Booting.initialise {c c' : Cluster} (h : Booting msg c) (hnd : msg.names.Nodup) {p : Name}
    {m : InitBranch} {ch : Channel} {rest : List BranchMessage} {r : Branch × List Effect}
    (hhost : ch.host = some p) (hqueue : c.queue ch = .initBranch m :: rest)
    (hr : (c.branch p).initBranchHandler m = .ok r)
    (hc' : c' = ({ c with queue := fun x => if x = ch then rest else c.queue x } : Cluster).update
      p r) (hf : Forward c c') : Booting msg c' := by
  obtain ⟨rfl, q, hq, rfl⟩ := h.messages ch _ (hqueue ▸ List.mem_cons_self)
  obtain rfl : q = p := Option.some.inj hhost
  set c₁ : Cluster := { c with
    queue := fun x => if x = ⟨.controller q, .acceptor⟩ then rest else c.queue x } with hc₁
  have hinits : waitingInits m c q = rest.count (.initBranch m) + 1 := by
    rw [waitingInits, hqueue, List.count_cons_self]
  obtain ⟨hone, hfresh⟩ : Waiting m c q := (h.roll q hq).resolve_right fun hready => by
    have := hready.inits
    omega
  obtain ⟨o, ho⟩ := List.mem_iff_getElem?.mp hq
  have ho' : m.names[o]? = some (c.branch q).name := by rw [h.named q, ho]
  obtain ⟨_, _, _, _, hsent⟩ := initBranchHandler_keeps hr
  obtain ⟨b', hb', hname, hchannels, hstrand, _, hpeers⟩ := initBranchHandler_fresh hnd hfresh ho'
  obtain rfl := Except.ok.inj (hr.symm.trans hb')
  rw [h.named q] at hc' hsent
  set effects := (targets m.peers m.names.length o).map fun peer =>
    Effect.connect peer ⟨.peer q peer.name, .opener⟩ with heffects
  have hopened : Cluster.opened effects = (targets m.peers m.names.length o).map fun peer =>
      (peer, ⟨.peer q peer.name, .opener⟩) := by
    rw [heffects, Cluster.opened, List.filterMap_map, ← List.filterMap_eq_map]
    rfl
  have hdial : ∀ a, Opens m q a ↔ ∃ peer ∈ targets m.peers m.names.length o, peer.name = a := by
    intro a
    have ho'' : m.names[o]? = some ({ name := q } : Branch).name := ho
    rw [Opens, dialled_fresh hnd rfl ho'', List.mem_map, and_iff_right hq]
  subst hc'
  refine h.advance ?_ hf fun x hx => ?_
  · refine h.toSound.replace (Cluster.update_self c₁ q _)
      (fun x hx => Cluster.update_ne c₁ _ hx) hname (fun t ht => Or.inl (hstrand ▸ ht))
      (fun x ch hl => Or.inl (hchannels ▸ hl)) (fun e he => ?_) (fun ch m' hm' => Or.inl ?_)
    · rw [Cluster.update_connecting] at he
      refine (List.mem_append.mp he).imp_right fun he' => ?_
      simp only [hopened, List.mem_map] at he'
      obtain ⟨peer, hpeer, rfl⟩ := he'
      exact ⟨q, (hdial _).mpr ⟨peer, hpeer, rfl⟩, rfl⟩
    · rw [Cluster.update_queue] at hm'
      simp only [hsent, List.append_nil] at hm'
      exact mem_queue_of_popped hqueue ch m' hm'
  · -- `q` is ready now, the others are as they were
    by_cases hxq : x = q
    · subst hxq
      refine Or.inr ⟨?_, ⟨o, ho, by rw [Cluster.update_self, hpeers]⟩, fun a ha => ?_⟩
      · rw [waitingInits, Cluster.update_queue]
        simp only [hsent, List.append_nil, hc₁, if_true]
        omega
      · obtain ⟨peer, hpeer, rfl⟩ := (hdial a).mp ha
        refine Or.inl ⟨(peer, ⟨.peer x peer.name, .opener⟩), ?_, rfl, rfl⟩
        rw [Cluster.update_connecting]
        refine List.mem_append_right _ ?_
        rw [hopened]
        exact List.mem_map.mpr ⟨peer, hpeer, rfl⟩
    · refine Or.inl ⟨?_, by rw [Cluster.update_ne c₁ _ hxq]⟩
      rw [waitingInits, waitingInits, Cluster.update_queue]
      simp [hsent, hc₁, hxq]

/-- A delivery of the start-up: an InitBranch makes its branch ready. -/
theorem Booting.deliver {c c' : Cluster} (h : Booting msg c) (hnd : msg.names.Nodup)
    {ch : Channel} (hc : c.deliver ch = some c') : Booting msg c' := by
  have hf := deliver_forward hc
  obtain ⟨p, m, rest, r, hhost, hqueue, _, hr, hc'⟩ := Cluster.deliver_eq_some hc
  rcases messageHandler_ok hr with
    ⟨_, rfl, hinit⟩ | ⟨hne, heffects, hname, hchannels, hpeers, hstrand, _⟩
  · exact h.initialise hnd hhost hqueue hinit hc' hf
  · subst hc'
    set c₁ : Cluster := { c with queue := fun x => if x = ch then rest else c.queue x } with hc₁
    refine h.advance (h.toSound.handle hhost hqueue heffects hname hchannels hstrand) hf
      fun x _ => Or.inl ⟨?_, Cluster.update_field Branch.knownPeers c₁ hpeers x⟩
    rw [waitingInits_update (fun ch hmem => by rw [heffects] at hmem; cases hmem), hc₁,
      waitingInits_pop hqueue (hne msg)]

/-- A task of the start-up. -/
theorem Booting.runTask {c c' : Cluster} (h : Booting msg c) {p : Name}
    (hc : c.runTask p = some c') : Booting msg c' := by
  have hf := runTask_forward hc
  obtain ⟨t, rest, r, hstrand, hr, rfl⟩ := Cluster.runTask_eq_some hc
  obtain ⟨_, hpeers, _, _, _, _, hsent⟩ := perform_ok hr
  refine h.advance (h.toSound.perform hstrand hr) hf fun x _ =>
    Or.inl ⟨waitingInits_update (fun ch hmem => ?_) x,
      Cluster.update_field Branch.knownPeers c hpeers x⟩
  rcases hsent ch _ hmem with ⟨_, hm⟩ | ⟨_, hm⟩ | ⟨_, _, _, _, hm⟩ <;> cases hm

/-- **Start-up runs keep the invariant.** One case per action. -/
theorem Booting.step {c c' : Cluster} {a : Action} (h : Booting msg c) (hnd : msg.names.Nodup)
    (hC : StartupStep c a) (hc : c.step a = some c') : Booting msg c' := by
  have hf := step_forward hc
  cases a with
  | controllerSend p m =>
    -- the controller sends no second InitBranch and no message of a branch
    have hm : m ≠ .initBranch msg ∧ ∀ ch, MessageSound msg ch m := by
      cases m with
      | initSnapshot id => exact ⟨by simp, fun _ => trivial⟩
      | retrieveSnapshot id => exact ⟨by simp, fun _ => trivial⟩
      | _ => exact hC.elim
    obtain rfl := Option.some.inj hc
    have hqueue : ∀ ch, (c.send ⟨.controller p, .opener⟩ m).queue ch = c.queue ch ∨
        (c.send ⟨.controller p, .opener⟩ m).queue ch = c.queue ch ++ [m] := by
      intro ch
      simp only [Cluster.send]
      split
      · exact Or.inr rfl
      · exact Or.inl rfl
    refine h.advance ⟨h.named, h.connecting, h.tasks, fun ch m' hm' => ?_, h.channels⟩ hf
      fun x _ => Or.inl ⟨?_, rfl⟩
    · rcases hqueue ch with heq | heq
      · exact h.messages ch m' (heq ▸ hm')
      · rcases List.mem_append.mp (heq ▸ hm') with hold | hnew
        · exact h.messages ch m' hold
        · exact List.mem_singleton.mp hnew ▸ hm.2 ch
    · rw [waitingInits, waitingInits]
      rcases hqueue ⟨.controller x, .acceptor⟩ with heq | heq
      · rw [heq]
      · rw [heq, List.count_append, List.count_cons_of_ne hm.1, List.count_nil, Nat.add_zero]
  | connect peer ch =>
    have hs := h.toSound.connect hc
    obtain ⟨p, _, _, rfl⟩ := Cluster.connect_eq_some hc
    refine h.advance hs hf fun x _ => Or.inl ⟨rfl, ?_⟩
    exact Cluster.setBranch_field Branch.knownPeers c (by rfl) x
  | accept p k =>
    obtain ⟨_, _, rfl⟩ := Cluster.accept_eq_some hc
    have hsame : ∀ x, ((c.setBranch p ((c.branch p).doAccept ⟨k, .acceptor⟩)).branch x).knownPeers
        = (c.branch x).knownPeers := Cluster.setBranch_field Branch.knownPeers c rfl
    refine h.advance ?_ hf fun x _ => Or.inl ⟨rfl, hsame x⟩
    exact h.toSound.replace (Cluster.setBranch_self c p _)
      (fun x hx => Cluster.setBranch_ne c _ hx) rfl (fun t ht => Or.inl ht)
      (fun q ch hl => Or.inl hl) (fun e he => Or.inl he) (fun _ _ hm => Or.inl hm)
  | deliver ch => exact h.deliver hnd hc
  | runTask p => exact h.runTask hc
  | sendMoney p i attempts =>
    have hs := h.toSound.sendMoney hc
    obtain ⟨e, toSend, _, _, rfl⟩ := Cluster.sendMoney_eq_some hc
    exact h.advance hs hf fun x _ =>
      Or.inl ⟨waitingInits_update (fun ch hm => by cases (sent_by_timer hm).2) x,
        Cluster.update_field Branch.knownPeers c (by rfl) x⟩

/-- The invariant of the start-up holds in every state that it reaches. -/
theorem Booting.run {c : Cluster} {as : List Action} (hnd : msg.names.Nodup)
    (hsteps : Along Cluster.step StartupStep (Cluster.starting msg) as)
    (hrun : exec Cluster.step (Cluster.starting msg) as = some c) : Booting msg c :=
  exec_inv_along (fun _ _ _ hs hC hstep => hs.step hnd hC hstep) (Booting.starting msg) hsteps hrun

/-! ## When all Hellos are processed -/

/-- Every branch has handled its InitBranch, every connection is up and every Hello has been
sent and processed. -/
structure Greeted (msg : InitBranch) (c : Cluster) : Prop where
  inits : ∀ p ∈ msg.names, .initBranch msg ∉ c.queue ⟨.controller p, .acceptor⟩
  connecting : c.connecting = []
  hellos : ∀ o ∈ msg.names, ∀ a ∈ msg.names, .hello o ∉ c.queue ⟨.peer o a, .acceptor⟩
  tasks : ∀ p ∈ msg.names, ∀ t ∈ (c.branch p).strand, entered t = none

instance (msg : InitBranch) (c : Cluster) : Decidable (Greeted msg c) :=
  decidable_of_iff
    ((∀ p ∈ msg.names, .initBranch msg ∉ c.queue ⟨.controller p, .acceptor⟩) ∧
      c.connecting = [] ∧
      (∀ o ∈ msg.names, ∀ a ∈ msg.names, .hello o ∉ c.queue ⟨.peer o a, .acceptor⟩) ∧
      ∀ p ∈ msg.names, ∀ t ∈ (c.branch p).strand, entered t = none)
    ⟨fun ⟨h₁, h₂, h₃, h₄⟩ => ⟨h₁, h₂, h₃, h₄⟩, fun ⟨h₁, h₂, h₃, h₄⟩ => ⟨h₁, h₂, h₃, h₄⟩⟩

/-- When all greetings are over, every branch has been initialised. -/
theorem Booting.ready {c : Cluster} (h : Booting msg c) (hg : Greeted msg c) {p : Name}
    (hp : p ∈ msg.names) : Ready msg c p := by
  refine (h.roll p hp).resolve_left fun hwait => ?_
  have hzero : waitingInits msg c p = 0 := List.count_eq_zero.mpr (hg.inits p hp)
  have hone := hwait.1
  omega

/-- Where nothing of the introduction is on the way, it has reached its end. -/
theorem Greeting.entered {c : Cluster} {o a : Name} (h : Greeting c o a) (hg : Greeted msg c)
    (ho : o ∈ msg.names) (ha : a ∈ msg.names) :
    a ∈ (c.branch o).channels ∧ o ∈ (c.branch a).channels := by
  rcases h with ⟨e, he, _⟩ | hconn | ⟨hentered, hhello⟩
  · rw [hg.connecting] at he
    cases he
  · cases hg.tasks o ho _ hconn
  · refine ⟨hentered, ?_⟩
    rcases hhello with hqueue | ⟨ci, hposted⟩ | hknown
    · exact absurd hqueue (hg.hellos o ho a ha)
    · cases hg.tasks a ha _ hposted
    · exact hknown

/-- A branch dials another one of the list. -/
theorem Opens.mem {o a : Name} (h : Opens msg o a) (hnd : msg.names.Nodup) :
    o ∈ msg.names ∧ a ∈ msg.names ∧ o ≠ a := by
  obtain ⟨i, hi⟩ := List.mem_iff_getElem?.mp h.1
  have hi' : msg.names[i]? = some ({ name := o } : Branch).name := hi
  refine ⟨h.1, mem_names_of_mem_dialled hnd rfl hi' h.2, ?_⟩
  rintro rfl
  exact not_mem_dialled_self hnd rfl hi' h.2

/-- Of two branches one opens a connection to the other. -/
theorem opens_or_opens (hnd : msg.names.Nodup) {p q : Name} (hp : p ∈ msg.names)
    (hq : q ∈ msg.names) (hpq : p ≠ q) : Opens msg p q ∨ Opens msg q p := by
  have hone : (({ name := p } : Branch).dialled msg).count q
      + (({ name := q } : Branch).dialled msg).count p = 1 :=
    dialled_once hnd (show ({ name := p } : Branch).name ∈ msg.names from hp)
      (show ({ name := q } : Branch).name ∈ msg.names from hq) rfl rfl hpq
  by_cases hmem : q ∈ ({ name := p } : Branch).dialled msg
  · exact Or.inl ⟨hp, hmem⟩
  · rw [List.count_eq_zero.mpr hmem] at hone
    exact Or.inr ⟨hq, List.count_pos_iff.mp (by omega)⟩

/-- **Every branch has entered the others.** -/
theorem Booting.mem_channels {c : Cluster} (h : Booting msg c) (hnd : msg.names.Nodup)
    (hg : Greeted msg c) {p : Name} (hp : p ∈ msg.names) (q : Name) :
    q ∈ (c.branch p).channels ↔ q ∈ msg.names ∧ q ≠ p := by
  constructor
  · intro hq
    obtain ⟨ch, hl⟩ := UnorderedMap.mem_iff_exists_lookup.mp hq
    rcases h.channels p q ch hl with ⟨ho, _⟩ | ⟨ho, _⟩
    · exact ⟨(ho.mem hnd).2.1, (ho.mem hnd).2.2.symm⟩
    · exact ⟨(ho.mem hnd).1, (ho.mem hnd).2.2⟩
  · rintro ⟨hq, hqp⟩
    rcases opens_or_opens hnd hp hq (Ne.symm hqp) with ho | ho
    · exact (((h.ready hg hp).greets q ho).entered hg hp hq).1
    · exact (((h.ready hg hq).greets p ho).entered hg hq hp).2

/-- A ready branch knows the others. -/
theorem Ready.mem_knownPeers {c : Cluster} {p : Name} (h : Ready msg c p) (hnd : msg.names.Nodup)
    (q : Name) : q ∈ (c.branch p).knownPeers.map PeerInfo.name ↔ q ∈ msg.names ∧ q ≠ p := by
  obtain ⟨o, ho, hpeers⟩ := h.peers
  obtain ⟨hlt, rfl⟩ := List.getElem?_eq_some_iff.mp ho
  rw [hpeers, ← List.eraseIdx_map, msg.map_name_peers, ← List.Nodup.erase_getElem hnd o hlt,
    List.Nodup.mem_erase_iff hnd, and_comm]

end Startup

/-- **The branches form a complete graph with one connection per pair.** A branch at offset
`o` connects to the `outgoing` offsets that follow it and not to itself; of two branches
exactly one connects to the other, once. In every start-up run, once all Hellos are
processed, `d_channels` of each branch has exactly the names in its `d_known_peers`. -/
theorem complete_graph {msg : InitBranch} (hnd : msg.names.Nodup) :
    (∀ (b : Branch) (o : ℕ), b.knownPeers = [] → msg.names[o]? = some b.name →
      (∃ r, b.initBranchHandler msg = .ok r) ∧ b.name ∉ b.dialled msg ∧
      (b.dialled msg).length = outgoing msg.names.length o ∧
      ∀ i < outgoing msg.names.length o,
        (b.dialled msg)[i]? = msg.names[(o + 1 + i) % msg.names.length]?) ∧
    (∀ b b' : Branch, b.knownPeers = [] → b'.knownPeers = [] → b.name ∈ msg.names →
      b'.name ∈ msg.names → b.name ≠ b'.name →
      (b.dialled msg).count b'.name + (b'.dialled msg).count b.name = 1) ∧
    ∀ (as : List Action) (c : Cluster),
      Along Cluster.step StartupStep (Cluster.starting msg) as →
      exec Cluster.step (Cluster.starting msg) as = some c → Greeted msg c →
      ∀ p ∈ msg.names, ∀ q, q ∈ (c.branch p).channels ↔
        q ∈ (c.branch p).knownPeers.map PeerInfo.name := by
  -- What one branch dials, what two branches dial of each other, and what the whole graph holds.
  refine ⟨fun b o hfresh ho => ?_, fun b b' hfresh hfresh' hb hb' hne => ?_,
    fun as c hsteps hrun hg p hp q => ?_⟩
  · obtain ⟨b', hr, _⟩ := initBranchHandler_fresh hnd hfresh ho
    have hlt := (List.getElem?_eq_some_iff.mp ho).1
    refine ⟨⟨_, hr⟩, not_mem_dialled_self hnd hfresh ho, ?_, fun i hi => ?_⟩
    · rw [dialled_eq_map hnd hfresh ho, List.length_map, List.length_range]
    · have hmod : (o + 1 + i) % msg.names.length < msg.names.length := Nat.mod_lt _ (by omega)
      rw [dialled_eq_map hnd hfresh ho, List.getElem?_map, List.getElem?_range hi,
        Option.map_some, List.getD_eq_getElem _ _ hmod, List.getElem?_eq_getElem hmod]
  · exact dialled_once hnd hb hb' hfresh hfresh' hne
  · have hboot := Booting.run hnd hsteps hrun
    rw [hboot.mem_channels hnd hg hp, (hboot.ready hg hp).mem_knownPeers hnd]

/-- Two branches with 100 each. -/
def twoBranches : InitBranch := ⟨100, [⟨"a", "", 1⟩, ⟨"b", "", 2⟩]⟩

/-- `"a"` is initialised and introduces itself before `"b"` is initialised. -/
def twoBranchesRun : List Action :=
  [ .accept "a" (.controller "a"), .deliver ⟨.controller "a", .acceptor⟩,
    .connect ⟨"b", "", 2⟩ ⟨.peer "a" "b", .opener⟩, .runTask "a", .accept "b" (.peer "a" "b"),
    .deliver ⟨.peer "a" "b", .acceptor⟩, .runTask "b", .accept "b" (.controller "b"),
    .deliver ⟨.controller "b", .acceptor⟩ ]

/-- Two branches are connected once the InitBranches and the Hello have been handled. -/
theorem complete_graph_two : ∃ c,
    exec Cluster.step (Cluster.starting twoBranches) twoBranchesRun = some c ∧
    Greeted twoBranches c ∧ ∀ p ∈ twoBranches.names, ∀ q, q ∈ (c.branch p).channels ↔
      q ∈ (c.branch p).knownPeers.map PeerInfo.name := by
  have hsteps : Along Cluster.step StartupStep (Cluster.starting twoBranches) twoBranchesRun := by
    decide
  have hrun : ∃ c, exec Cluster.step (Cluster.starting twoBranches) twoBranchesRun = some c ∧
      Greeted twoBranches c := ⟨_, rfl, by decide⟩
  obtain ⟨c, hc, hg⟩ := hrun
  exact ⟨c, hc, hg, (complete_graph (by decide)).2.2 _ c hsteps hc hg⟩

end Cs457.Bank
