import Cs457.Kv.Recovery
import Cs457.Kv.Requests
import Cs457.Lib.Transition

/-!
# Key-value store — one answer to each request

* **`Session.Good`** — the tables of both kinds of requests agree with the record, and no uuid
  has more answers than there are replicas.
* **`Good.idle`, `ask`, `arrive`, `run`** — the four ways an event concerns a request.
* **`Good.step`** — every event keeps the invariant.
* **`answered_once`** — every request of every run is served.
-/

namespace Cs457.Kv

open Transition Coordinator

namespace Session

/-- The number of configured replicas. -/
def size (s : Session) : ℕ := s.server.config.replicas.length

/-- **The invariant of a session.** -/
structure Good (s : Session) : Prop where
  table : ∀ κ, Table s.size s.server κ (s.requests κ) s.answers
  drawn : ∀ κ, ∀ r ∈ s.requests κ, ∀ u, r.uuid = some u → u ∈ s.drawn
  ids : ∀ {k id}, s.server.introduced k = some id → id < s.size
  answers : s.answers.Nodup
  sources : ∀ a ∈ s.answers, a.2 < s.size
  results : ∀ {u p}, s.server.pendingReads.lookup u = some p → p.results ≠ []
  sent : s.sent.Perm (s.all.flatMap Request.replies)

/-- A server without requests. -/
theorem good_create (config : Config) (file hintFile : List UInt8) :
    ({ server := .create config file hintFile } : Session).Good where
  table κ := by
    cases κ with
    | get => exact ⟨rfl, nofun, nofun, fun _ => Nat.zero_le _, nofun, .nil, nofun, nofun, nofun⟩
    | put => exact ⟨rfl, nofun, nofun, fun _ => Nat.zero_le _, nofun, .nil, nofun, nofun, nofun⟩
  drawn := nofun
  ids := nofun
  answers := .nil
  sources := nofun
  results := nofun
  sent := .nil

variable {s : Session}

/-- Each replica has answered once at most, so there are no more answers than replicas. -/
theorem Good.received_le (h : s.Good) (u : String) : received s.answers u ≤ s.size := by
  -- the answers for one uuid differ in their senders
  have hnodup : ((s.answers.filter fun a => a.1 = u).map Prod.snd).Nodup := by
    refine (h.answers.filter _).map_on fun a ha b hb hab => ?_
    have hau := (List.mem_filter.mp ha).2
    have hbu := (List.mem_filter.mp hb).2
    exact Prod.ext ((of_decide_eq_true hau).trans (of_decide_eq_true hbu).symm) hab
  have hsub : (s.answers.filter fun a => a.1 = u).map Prod.snd ⊆ List.range s.size := by
    intro i hi
    obtain ⟨a, ha, rfl⟩ := List.mem_map.mp hi
    exact List.mem_range.mpr (h.sources a (List.mem_of_mem_filter ha))
  have hle := (List.subperm_of_subset hnodup hsub).length_le
  rw [List.length_map, List.length_range] at hle
  rw [received, List.countP_eq_length_filter]
  exact hle

/-- A broadcast is no reply. -/
theorem replies_broadcast (c : Coordinator) (msg : ServerMessage) :
    replies (c.broadcast msg) = [] := by
  refine List.filterMap_eq_nil_iff.mpr fun e he => ?_
  obtain ⟨i, _, rfl⟩ := List.mem_map.mp he
  rfl

/-- Nor is a handoff. -/
theorem replies_handoff (c : Coordinator) (i : ℕ) : replies (c.handoff i) = [] := by
  refine List.filterMap_eq_nil_iff.mpr fun e he => ?_
  unfold handoff at he
  split at he
  · obtain ⟨k, _, he⟩ := List.mem_filterMap.mp he
    split at he
    · cases he
    · obtain ⟨data, _, rfl⟩ := Option.map_eq_some_iff.mp he
      rfl
  · cases he

/-- The sender of a completion is one of the replicas. -/
theorem Good.sender_lt (h : s.Good) {ev : Event} (hadmits : s.Admits ev) {source : Chan} {id : ℕ}
    {msg : ServerMessage} (hev : ev = .server source msg) (hid : s.server.idOf source = some id) :
    id < s.size := by
  subst hev
  cases source with
  | outgoing i =>
    cases hid
    exact of_decide_eq_true hadmits.2.2
  | accepted k => exact h.ids hid

/-- An event after which the invariant holds: what is to be shown of each kind of event. -/
theorem Good.record (h : s.Good) {ev : Event} {c' : Coordinator} {es : List Effect}
    (hadmits : s.Admits ev) (hconfig : c'.config = s.server.config)
    (hids : ∀ {k id}, c'.introduced k = some id → id < s.size)
    (htable : ∀ κ, Table s.size c' κ (s.note ev (replies es) κ) (s.answers ++ s.server.receives ev))
    (hdrawn : ∀ κ, ∀ r ∈ s.note ev (replies es) κ, ∀ u, r.uuid = some u →
      u ∈ s.drawn ++ s.draws ev)
    (hsources : ∀ a ∈ s.server.receives ev, a.2 < s.size) (hsingle : (s.server.receives ev).Nodup)
    (hresults : ∀ {u p}, c'.pendingReads.lookup u = some p → p.results ≠ [])
    (hsent : ((s.note ev (replies es) .get ++ s.note ev (replies es) .put).flatMap
      Request.replies).Perm (s.all.flatMap Request.replies ++ replies es)) :
    (s.record ev (c', es)).Good := by
  have hsize : (s.record ev (c', es)).size = s.size := by
    rw [size, size]
    exact congrArg (fun config => config.replicas.length) hconfig
  -- Field by field, with the requests and answers of the event added.
  constructor
  · rw [hsize]
    exact htable
  · exact hdrawn
  · rw [hsize]
    exact hids
  · refine List.nodup_append.mpr ⟨h.answers, hsingle, ?_⟩
    rintro a ha b hb rfl
    exact hadmits.2.1 a hb ha
  · rw [hsize]
    intro a ha
    rcases List.mem_append.mp ha with ha | ha
    · exact h.sources a ha
    · exact hsources a ha
  · exact hresults
  · exact (h.sent.append_right _).trans hsent.symm

/-- An event that has no part in a request. -/
theorem Good.idle (h : s.Good) {ev : Event} {c' : Coordinator} {es : List Effect}
    (hadmits : s.Admits ev) (hnote : s.note ev [] = s.requests)
    (hreceives : s.server.receives ev = [])
    (hes : replies es = []) (hconfig : c'.config = s.server.config)
    (hids : ∀ {k id}, c'.introduced k = some id → id < s.size)
    (hreads : c'.readStrand = s.server.readStrand)
    (hwrites : c'.writeStrand = s.server.writeStrand)
    (hpendingReads : c'.pendingReads = s.server.pendingReads)
    (hpendingWrites : c'.pendingWrites = s.server.pendingWrites) :
    (s.record ev (c', es)).Good := by
  refine h.record hadmits hconfig hids (fun κ => ?_) (fun κ r hr u hu => ?_) ?_ ?_ (fun hp => ?_) ?_
  · -- The event neither notes a request nor answers one, and touches no table.
    rw [hes, hnote]
    refine (h.table κ).unaffected ?_ (fun u => ?_) fun u => ?_
    · cases κ <;> simp only [startsOf, hreads, hwrites]
    · cases κ <;> simp only [entryOf, hpendingReads, hpendingWrites]
    · cases κ <;> simp only [arrived, hreads, hwrites]
  · rw [hes, hnote] at hr
    exact List.mem_append_left _ (h.drawn κ r hr u hu)
  · rw [hreceives]
    exact List.forall_mem_nil _
  · rw [hreceives]
    exact .nil
  · rw [hpendingReads] at hp
    exact h.results hp
  · rw [hes, hnote, List.append_nil]
    exact .refl _

/-- A request comes in. -/
theorem Good.ask (h : s.Good) {ev : Event} {c' : Coordinator} {es : List Effect} {κ : Kind}
    {r₀ : Request} (hadmits : s.Admits ev)
    (hnote : s.note ev (replies es) = Function.update s.requests κ (s.requests κ ++ [r₀]))
    (hreplies : r₀.replies = replies es) (hreceives : s.server.receives ev = [])
    (hdraws : ∀ u, r₀.uuid = some u → s.draws ev = [u])
    (hconfig : c'.config = s.server.config) (hintroduced : c'.introduced = s.server.introduced)
    (hpendingReads : c'.pendingReads = s.server.pendingReads)
    (hpendingWrites : c'.pendingWrites = s.server.pendingWrites)
    (hstarts : c'.startsOf κ = s.server.startsOf κ ++ r₀.slip.toList)
    (hothers : ∀ κ', κ' ≠ κ → c'.startsOf κ' = s.server.startsOf κ')
    (harrived : ∀ κ u, c'.arrived u κ = s.server.arrived u κ)
    (hnew : ∀ u, ¬ r₀.Holds u) (hquiet : r₀.handled = 0)
    (hmany : κ = .get → r₀.started = false → r₀.ask.consistency ≠ 1)
    (hserved : r₀.Served κ s.size) : (s.record ev (c', es)).Good := by
  have hentry : ∀ κ u, c'.entryOf u κ = s.server.entryOf u κ := by
    intro κ u
    cases κ <;> simp only [entryOf, hpendingReads, hpendingWrites]
  -- the uuid of the new request has just been drawn
  have hfresh : ∀ κ, ∀ r ∈ s.requests κ, r.Apart r₀ := by
    intro κ r hr u hu hr₀
    refine hadmits.1 u ?_ (h.drawn κ r hr u hu)
    rw [hdraws u hr₀]
    exact List.mem_singleton_self u
  refine h.record hadmits hconfig (fun hk => h.ids (hintroduced ▸ hk)) (fun κ' => ?_)
    (fun κ' r hr u hu => ?_) ?_ ?_ (fun hp => h.results (hpendingReads ▸ hp)) ?_
  · rw [hnote]
    by_cases hκ : κ' = κ
    · subst hκ
      rw [Function.update_self, hreceives, List.append_nil]
      exact (h.table κ').append_request hstarts (hentry κ') (harrived κ') hnew hquiet (hfresh κ')
        hmany hserved
    · rw [Function.update_of_ne hκ]
      exact (h.table κ').unaffected (hothers κ' hκ) (hentry κ') (harrived κ')
  · rw [hnote] at hr
    by_cases hκ : κ' = κ
    · subst hκ
      rw [Function.update_self] at hr
      rcases List.mem_append.mp hr with hr | hr
      · exact List.mem_append_left _ (h.drawn κ' r hr u hu)
      · rw [List.mem_singleton.mp hr] at hu
        rw [hdraws u hu]
        exact List.mem_append_right _ (List.mem_singleton_self u)
    · rw [Function.update_of_ne hκ] at hr
      exact List.mem_append_left _ (h.drawn κ' r hr u hu)
  · rw [hreceives]
    exact List.forall_mem_nil _
  · rw [hreceives]
    exact .nil
  · rw [hnote, ← hreplies]
    cases κ with
    | get =>
      show ((s.requests .get ++ [r₀] ++ s.requests .put).flatMap _).Perm _
      rw [List.append_assoc]
      simp only [all, List.flatMap_append, List.flatMap_cons, List.flatMap_nil, List.append_nil,
        List.append_assoc]
      exact (List.perm_append_comm).append_left _
    | put =>
      show ((s.requests .get ++ (s.requests .put ++ [r₀])).flatMap _).Perm _
      simp only [all, List.flatMap_append, List.flatMap_cons, List.flatMap_nil, List.append_nil,
        List.append_assoc]
      exact .refl _

/-- A completion comes in. -/
theorem Good.arrive (h : s.Good) {source : Chan} {msg : ServerMessage} {c' : Coordinator}
    {u : String} {id : ℕ} (hadmits : s.Admits (.server source msg))
    (hsender : s.server.idOf source = some id)
    (hnote : s.note (.server source msg) [] = s.requests)
    (hreceives : s.server.receives (.server source msg) = [(u, id)])
    (hconfig : c'.config = s.server.config) (hintroduced : c'.introduced = s.server.introduced)
    (hpendingReads : c'.pendingReads = s.server.pendingReads)
    (hpendingWrites : c'.pendingWrites = s.server.pendingWrites)
    (hstarts : ∀ κ, c'.startsOf κ = s.server.startsOf κ)
    (harrived : ∀ κ x, c'.arrived x κ ≤ s.server.arrived x κ + if x = u then 1 else 0) :
    (s.record (.server source msg) (c', [])).Good := by
  have hlt := h.sender_lt hadmits rfl hsender
  refine h.record hadmits hconfig (fun hk => h.ids (hintroduced ▸ hk)) (fun κ => ?_)
    (fun κ r hr u hu => ?_) ?_ ?_ (fun hp => h.results (hpendingReads ▸ hp)) ?_
  · -- The answer waits in the strand of its request; it is counted only when its task runs.
    show Table _ _ _ (s.note _ [] κ) _
    rw [hnote, hreceives]
    refine (h.table κ).receive_answers (hstarts κ) (fun x => ?_) fun x => ?_
    · cases κ <;> simp only [entryOf, hpendingReads, hpendingWrites]
    · refine (harrived κ x).trans (Nat.add_le_add_left ?_ _)
      simp only [received, List.countP_cons, List.countP_nil, Nat.zero_add, decide_eq_true_eq]
      by_cases hx : x = u
      · rw [if_pos hx, if_pos hx.symm]
      · rw [if_neg hx]
        exact Nat.zero_le _
  · exact List.mem_append_left _ (h.drawn κ r (hnote ▸ hr) u hu)
  · rw [hreceives]
    intro a ha
    rw [List.mem_singleton.mp ha]
    exact hlt
  · rw [hreceives]
    exact List.nodup_singleton _
  · show ((s.note _ [] .get ++ s.note _ [] .put).flatMap _).Perm (_ ++ [])
    rw [hnote, List.append_nil]
    exact .refl _

/-- A task of a strand runs. -/
theorem Good.run (h : s.Good) {ev : Event} {c' : Coordinator} {es : List Effect} {κ : Kind}
    {rs' : List Request} {r r' : Request} (hadmits : s.Admits ev)
    (hnote : s.note ev (replies es) = Function.update s.requests κ rs')
    (hswap : Table.Swap (s.requests κ) rs' r r') (hreplies : r'.replies = r.replies ++ replies es)
    (huuid : ∀ u, r'.uuid = some u → u ∈ s.drawn ++ s.draws ev)
    (hreceives : s.server.receives ev = [])
    (hconfig : c'.config = s.server.config) (hintroduced : c'.introduced = s.server.introduced)
    (htable : Table s.size c' κ rs' s.answers)
    (hothers : ∀ κ', κ' ≠ κ → c'.startsOf κ' = s.server.startsOf κ' ∧
      (∀ u, c'.entryOf u κ' = s.server.entryOf u κ') ∧
      ∀ u, c'.arrived u κ' = s.server.arrived u κ')
    (hresults : ∀ {u p}, c'.pendingReads.lookup u = some p → p.results ≠ []) :
    (s.record ev (c', es)).Good := by
  refine h.record hadmits hconfig (fun hk => h.ids (hintroduced ▸ hk)) (fun κ' => ?_)
    (fun κ' x hx u hu => ?_) ?_ ?_ hresults ?_
  · rw [hnote]
    -- the other kind of requests is left alone
    by_cases hκ : κ' = κ
    · subst hκ
      rw [Function.update_self, hreceives, List.append_nil]
      exact htable
    · rw [Function.update_of_ne hκ]
      obtain ⟨hstarts, hentry, harrived⟩ := hothers κ' hκ
      exact (h.table κ').unaffected hstarts hentry harrived
  · rw [hnote] at hx
    by_cases hκ : κ' = κ
    · subst hκ
      rw [Function.update_self] at hx
      exact hswap.forall_new (P := fun x => ∀ u, x.uuid = some u → u ∈ s.drawn ++ s.draws ev)
        (fun x hx u hu => List.mem_append_left _ (h.drawn κ' x hx u hu)) huuid x hx u hu
    · rw [Function.update_of_ne hκ] at hx
      exact List.mem_append_left _ (h.drawn κ' x hx u hu)
  · rw [hreceives]
    exact List.forall_mem_nil _
  · rw [hreceives]
    exact .nil
  · have hperm := hswap.replies hreplies
    rw [hnote]
    cases κ with
    | get =>
      show ((rs' ++ s.requests .put).flatMap _).Perm ((s.requests .get ++ s.requests .put).flatMap _
        ++ _)
      rw [List.flatMap_append, List.flatMap_append, List.append_assoc]
      refine (hperm.append_right _).trans ?_
      rw [List.append_assoc]
      exact (List.perm_append_comm).append_left _
    | put =>
      show ((s.requests .get ++ rs').flatMap _).Perm ((s.requests .get ++ s.requests .put).flatMap _
        ++ _)
      rw [List.flatMap_append, List.flatMap_append, List.append_assoc]
      exact hperm.append_left _

/-- A request that has been taken and is not answered yet. -/
theorem served_of_waiting {κ : Kind} {n : ℕ} {r : Request} (hwaits : r.started = false)
    (hsilent : r.replies = []) : r.Served κ n := by
  refine ⟨fun hdue => ?_, fun _ => hsilent⟩
  rw [Request.Due, hwaits] at hdue
  exact absurd hdue.1 (by decide)

/-- A get comes in: it is answered at once with consistency 1, and waits in the strand otherwise. -/
theorem Good.get {codecs : Codecs} (h : s.Good) {requestor : Client} {msg : GetKey}
    {stamp : Timestamp} {uuid : String} {c' : Coordinator} {es : List Effect}
    (hadmits : s.Admits (.client requestor (.getKey msg) stamp uuid))
    (hhandle : s.server.handle codecs (.client requestor (.getKey msg) stamp uuid)
      = some (c', es)) :
    (s.record (.client requestor (.getKey msg) stamp uuid) (c', es)).Good := by
  cases acts_of_handle hhandle with
  | badRequest noGet => exact absurd rfl (noGet msg)
  | getOwn key one =>
    refine h.ask hadmits rfl rfl rfl (fun u hu => by cases hu) rfl rfl rfl rfl ?_
      (fun κ hκ => ?_) (fun κ u => ?_) ?_ rfl ?_ ?_
    · simp only [Request.slip, one, decide_true, if_true, Option.toList_none, List.append_nil]
      rfl
    · rw [Kind.eq_put hκ]
      rfl
    · cases κ <;> rfl
    · rintro u ⟨_, hu⟩
      cases hu
    · intro _ hwaits
      simp only [one, decide_true] at hwaits
      cases hwaits
    · refine ⟨fun _ => ⟨_, rfl, rfl, rfl⟩, fun hdue => absurd ?_ hdue⟩
      -- the server's own copy is enough
      refine ⟨decide_eq_true one, ?_⟩
      show 1 ≤ msg.consistency.toNat ∧ msg.consistency.toNat ≤ _ ∧ msg.consistency.toNat - 1 ≤ 0
      rw [one]
      exact ⟨Nat.le_refl 1, Nat.le_add_left 1 _, Nat.le_refl 0⟩
  | getMany key many =>
    have hwaits : decide (msg.consistency = 1) = false := decide_eq_false many
    refine h.ask hadmits rfl rfl rfl (fun u hu => by cases hu) rfl rfl rfl rfl ?_
      (fun κ hκ => ?_) (fun κ u => ?_) ?_ rfl (fun _ _ => many) (served_of_waiting hwaits rfl)
    · simp only [Request.slip, hwaits]
      exact List.filterMap_append
    · rw [Kind.eq_put hκ]
      rfl
    · cases κ with
      | get =>
        simp only [arrived, List.countP_append]
        rfl
      | put => rfl
    · rintro u ⟨_, hu⟩
      cases hu

/-- A put comes in and waits in the strand, with the uuid that is drawn for it. -/
theorem Good.put {codecs : Codecs} (h : s.Good) {requestor : Client} {msg : PutKey}
    {stamp : Timestamp} {uuid : String} {c' : Coordinator} {es : List Effect}
    (hadmits : s.Admits (.client requestor (.putKey msg) stamp uuid))
    (hhandle : s.server.handle codecs (.client requestor (.putKey msg) stamp uuid)
      = some (c', es)) :
    (s.record (.client requestor (.putKey msg) stamp uuid) (c', es)).Good := by
  cases acts_of_handle hhandle with
  | badRequest _ noPut => exact absurd rfl (noPut msg)
  -- Only a valid put gets here; `.badRequest` is for messages that are neither a get nor a put.
  | put write =>
    refine h.ask hadmits rfl rfl rfl ?_ rfl rfl rfl rfl ?_ (fun κ hκ => ?_) (fun κ u => ?_) ?_ rfl
      nofun (served_of_waiting rfl rfl)
    · intro u hu
      rw [← Option.some.inj hu]
      rfl
    · exact List.filterMap_append
    · rw [Kind.eq_get hκ]
      rfl
    · cases κ with
      | get => rfl
      | put =>
        simp only [arrived, List.countP_append]
        rfl
    · rintro u ⟨hstarted, _⟩
      cases hstarted

/-- The task of a get draws a uuid and enters it. -/
theorem Good.startRead (h : s.Good) {msg : GetKey} {requestor : Client} {own : Element}
    {rest : List ReadTask} {uuid : String} (hadmits : s.Admits (.runRead uuid))
    (head : s.server.readStrand = .start msg requestor own :: rest) :
    (s.record (.runRead uuid) ({ s.server with
        readStrand := rest
        pendingReads := s.server.pendingReads.emplace uuid
          ⟨msg.stream, msg.key, msg.consistency - 1, requestor, [(own.timestamp, own.data)]⟩ },
      s.server.broadcast (.doRead ⟨uuid, msg.key⟩))).Good := by
  have hdraws : s.draws (.runRead uuid) = [uuid] := by simp only [draws, head]
  -- a read draws its uuid only now
  have hfresh : ∀ r ∈ s.requests .get, r.uuid ≠ some uuid := by
    intro r hr hu
    refine hadmits.1 uuid ?_ (h.drawn .get r hr uuid hu)
    rw [hdraws]
    exact List.mem_singleton_self uuid
  have hstarts : s.server.startsOf .get =
      (msg.ask requestor, none) :: rest.filterMap ReadTask.slip := by
    rw [startsOf, head]
    rfl
  obtain ⟨r, _, _, _, _, hswap⟩ :=
    @Table.swap_enter _ _ _ _ _ (h.table .get) _ _ uuid _ [] hstarts (Or.inl rfl)
  refine h.run hadmits ?_ hswap ?_ ?_ rfl rfl rfl ?_ (fun κ hκ => ?_) ?_
  · simp only [note, head, replies_broadcast]
  · rw [replies_broadcast]
  · intro u hu
    rw [← Option.some.inj hu, hdraws]
    exact List.mem_append_right _ (List.mem_singleton_self _)
  · refine (h.table .get).enter_oldest hstarts (Or.inl ⟨rfl, hfresh⟩) (fun hnone x => ?_)
      (fun x => ?_) nofun fun _ => rfl
    · have hnew : uuid ∉ s.server.pendingReads := by
        intro hmem
        obtain ⟨p, hp⟩ := UnorderedMap.mem_iff_exists_lookup.mp hmem
        exact hnone _ (by rw [entryOf, hp]; rfl)
      simp only [entryOf, UnorderedMap.lookup_emplace_of_notMem hnew]
      split <;> rfl
    · rw [arrived, arrived, head]
      rfl
  · rw [Kind.eq_put hκ]
    exact ⟨rfl, fun _ => rfl, fun _ => rfl⟩
  · intro u p hp
    rcases UnorderedMap.of_lookup_emplace hp with ⟨-, rfl⟩ | hold
    · exact List.cons_ne_nil _ _
    · exact h.results hold

/-- A ReadComplete is handled, with a reply or without. -/
theorem Good.completeRead (h : s.Good) (hn : s.size < 2 ^ 31) {msg : ReadComplete}
    {rest : List ReadTask} {uuid : String} {pending : PendingRead} {es : List Effect}
    (hadmits : s.Admits (.runRead uuid)) (head : s.server.readStrand = .complete msg :: rest)
    (found : s.server.pendingReads.lookup msg.uuid = some pending)
    (hone : pending.consistency = 1 → ∃ val, replies es =
      [(pending.requestor, .getKeyResp ⟨pending.stream, pending.key, val⟩)])
    (hmany : pending.consistency ≠ 1 → replies es = []) :
    (s.record (.runRead uuid) ({ s.server with
        readStrand := rest
        pendingReads := s.server.pendingReads.insert msg.uuid
          { pending with consistency := pending.consistency - 1 } }, es)).Good := by
  have hfound : s.server.entryOf msg.uuid .get =
      some ⟨pending.stream, pending.key, pending.consistency, pending.requestor⟩ := by
    rw [entryOf, found]
    rfl
  -- the request that the completion is for
  obtain ⟨r, hholds, _, hswap⟩ := @Table.swap_count _ _ _ _ _ (h.table .get) _ _ (replies es) hfound
  refine h.run hadmits ?_ hswap rfl ?_ rfl rfl rfl ?_ (fun κ hκ => ?_) ?_
  · simp only [note, head]
  · intro u hu
    exact List.mem_append_left _ (h.drawn .get r hswap.mem_old u hu)
  · refine (h.table .get).count_completion hn (h.received_le _) hfound ?_ (fun x => ?_)
      (fun x => ?_) (fun hc => ?_) hmany
    · rw [startsOf, startsOf, head]
      rfl
    · simp only [entryOf, UnorderedMap.lookup_insert_eq]
      split <;> rfl
    · rw [arrived, arrived, head, List.countP_cons]
      simp only [ReadTask.completes, decide_eq_true_eq, @eq_comm _ msg.uuid x]
    · obtain ⟨val, hval⟩ := hone hc
      exact ⟨_, hval, fun ask hstream hkey => ⟨hstream.symm, hkey.symm⟩⟩
  · rw [Kind.eq_put hκ]
    exact ⟨rfl, fun _ => rfl, fun _ => rfl⟩
  · intro u p hp
    have hold : pending.results ≠ [] := h.results found
    rcases UnorderedMap.of_lookup_insert hp with ⟨-, rfl⟩ | ⟨-, hother⟩
    · exact hold
    · exact h.results hother

/-- The task of a put enters it, and answers it if its consistency is 1. -/
theorem Good.startWrite (h : s.Good) {msg : PutKey} {requestor : Client} {uuid : String}
    {stamp : Timestamp} {rest : List WriteTask} (hadmits : s.Admits .runWrite)
    (head : s.server.writeStrand = .start msg requestor uuid stamp :: rest) :
    (s.record .runWrite ({ s.server with
        writeStrand := rest
        pendingWrites := s.server.pendingWrites.emplace uuid
          ⟨msg.stream, msg.key, msg.consistency - 1, requestor⟩ },
      (if msg.consistency = 1 then [.reply requestor (.putKeyResp ⟨msg.stream, msg.key⟩)] else [])
        ++ s.server.broadcast (.doWrite ⟨uuid, msg.key, stamp, msg.val⟩))).Good := by
  have hreplies : replies ((if msg.consistency = 1
        then [.reply requestor (.putKeyResp ⟨msg.stream, msg.key⟩)] else [])
        ++ s.server.broadcast (.doWrite ⟨uuid, msg.key, stamp, msg.val⟩)) =
      if msg.consistency = 1 then [(requestor, .putKeyResp ⟨msg.stream, msg.key⟩)] else [] := by
    refine List.filterMap_append.trans ?_
    show replies _ ++ replies _ = _
    rw [replies_broadcast, List.append_nil]
    split <;> rfl
  have hstarts : s.server.startsOf .put =
      (msg.ask requestor, some uuid) :: rest.filterMap WriteTask.slip := by
    rw [startsOf, head]
    rfl
  obtain ⟨r, _, huuid, _, _, hswap⟩ := @Table.swap_enter _ _ _ _ _ (h.table .put) _ _ uuid _
    (if msg.consistency = 1 then [(requestor, .putKeyResp ⟨msg.stream, msg.key⟩)] else [])
    hstarts (Or.inr rfl)
  refine h.run hadmits ?_ hswap ?_ ?_ rfl rfl rfl ?_ (fun κ hκ => ?_) h.results
  · simp only [note, head, hreplies]
  · rw [hreplies]
  · intro u hu
    rw [← Option.some.inj hu]
    exact List.mem_append_left _ (h.drawn .put r hswap.mem_old uuid huuid)
  · refine (h.table .put).enter_oldest hstarts (Or.inr rfl) (fun hnone x => ?_) (fun x => ?_)
      (fun hc _ => ?_) fun hc => if_neg hc
    · -- `emplace` finds no entry of this uuid
      have hnew : uuid ∉ s.server.pendingWrites := by
        intro hmem
        obtain ⟨p, hp⟩ := UnorderedMap.mem_iff_exists_lookup.mp hmem
        exact hnone p hp
      exact UnorderedMap.lookup_emplace_of_notMem hnew _ x
    · rw [arrived, arrived, head]
      rfl
    · exact ⟨_, if_pos hc, rfl, rfl⟩
  · rw [Kind.eq_get hκ]
    exact ⟨rfl, fun _ => rfl, fun _ => rfl⟩

/-- A WriteComplete is counted for its put. -/
theorem Good.completeWrite (h : s.Good) (hn : s.size < 2 ^ 31) {msg : WriteComplete} {sender : ℕ}
    {rest : List WriteTask} {pending : PendingWrite} {hintStrand : List HintTask}
    (hadmits : s.Admits .runWrite) (head : s.server.writeStrand = .complete msg sender :: rest)
    (found : s.server.pendingWrites.lookup msg.uuid = some pending) :
    (s.record .runWrite ({ s.server with
        writeStrand := rest
        pendingWrites := s.server.pendingWrites.insert msg.uuid
          { pending with consistency := pending.consistency - 1 }
        hintStrand := hintStrand },
      if pending.consistency = 1
        then [.reply pending.requestor (.putKeyResp ⟨pending.stream, pending.key⟩)] else
          [])).Good := by
  -- The entry of the table belongs to one waiting request, which the count takes one step further.
  obtain ⟨r, _, _, hswap⟩ := @Table.swap_count _ _ _ _ _ (h.table .put) _ _
    (replies (if pending.consistency = 1
      then [.reply pending.requestor (.putKeyResp ⟨pending.stream, pending.key⟩)] else [])) found
  refine h.run hadmits ?_ hswap rfl ?_ rfl rfl rfl ?_ (fun κ hκ => ?_) h.results
  · simp only [note, head]
  · intro u hu
    exact List.mem_append_left _ (h.drawn .put r hswap.mem_old u hu)
  · refine (h.table .put).count_completion hn (h.received_le _) found ?_ (fun x => ?_) (fun x => ?_)
      (fun hc => ?_) (fun hc => ?_)
    · rw [startsOf, startsOf, head]
      rfl
    · exact UnorderedMap.lookup_insert_eq _ _ _ x
    · rw [arrived, arrived, head, List.countP_cons]
      simp only [WriteTask.completes, decide_eq_true_eq, @eq_comm _ msg.uuid x]
    · -- The count reaches its end here: the reply carries the stream and the key that were asked.
      rw [if_pos hc]
      exact ⟨_, rfl, fun ask hstream hkey => ⟨hstream.symm, hkey.symm⟩⟩
    · rw [if_neg hc]
      rfl
  · rw [Kind.eq_get hκ]
    exact ⟨rfl, fun _ => rfl, fun _ => rfl⟩

/-- **The invariant is kept by every step.** One case for each kind of event. -/
theorem Good.step {codecs : Codecs} {s' : Session} {ev : Event} (h : s.Good)
    (hn : s.size < 2 ^ 31) (hstep : s.step codecs ev = some s') : s'.Good := by
  simp only [Session.step] at hstep
  split at hstep
  · next hadmits =>
    obtain ⟨⟨c', es⟩, hhandle, rfl⟩ := Option.map_eq_some_iff.mp hstep
    -- client requests, completions and tasks concern a request, all else is idle
    cases acts_of_handle hhandle with
    | getOwn | getMany => exact h.get hadmits hhandle
    | put => exact h.put hadmits hhandle
    | @badRequest _ msg _ _ _ noGet noPut =>
      refine h.idle hadmits ?_ rfl rfl rfl h.ids rfl rfl rfl rfl
      cases msg with
      | getKey m => exact absurd rfl (noGet m)
      | putKey m => exact absurd rfl (noPut m)
      | _ => rfl
    | introduce unknown found =>
      refine h.idle hadmits rfl rfl rfl rfl (fun {k' id'} hk => ?_) rfl rfl rfl rfl
      simp only [Function.update_apply] at hk
      split at hk
      · cases hk
        exact (List.findIdx?_eq_some_iff_findIdx_eq.mp found).1
      · exact h.ids hk
    | doWrite sender write =>
      refine h.idle hadmits rfl rfl ?_ rfl h.ids rfl rfl rfl rfl
      split <;> rfl
    | @writeComplete _ msg id sender =>
      refine @Good.arrive s h _ _ _ msg.uuid _ hadmits sender rfl ?_ rfl rfl rfl rfl (fun κ => ?_)
        fun κ x => ?_
      · simp only [receives, sender, Option.map_some, Option.toList_some]
      · cases κ with
        | get => rfl
        | put => simp [startsOf, WriteTask.slip]
      · cases κ with
        | get => exact Nat.le_add_right _ _
        | put =>
          simp only [arrived, List.countP_append, List.countP_cons, List.countP_nil,
            WriteTask.completes, decide_eq_true_eq, Nat.zero_add, @eq_comm _ msg.uuid x]
          exact Nat.le_refl _
    | @readComplete _ msg id sender =>
      refine @Good.arrive s h _ _ _ msg.uuid _ hadmits sender rfl ?_ rfl rfl rfl rfl (fun κ => ?_)
        fun κ x => ?_
      · simp only [receives, sender, Option.map_some, Option.toList_some]
      · cases κ with
        | get => simp [startsOf, ReadTask.slip]
        | put => rfl
      · cases κ with
        | get =>
          simp only [arrived, List.countP_append, List.countP_cons, List.countP_nil,
            ReadTask.completes, decide_eq_true_eq, Nat.zero_add, @eq_comm _ msg.uuid x]
          exact Nat.le_refl _
        | put => exact Nat.le_add_right _ _
    | startWrite head => exact h.startWrite hadmits head
    | completeWrite head found => exact h.completeWrite hn hadmits head found
    | startRead head => exact h.startRead hadmits head
    | completeRead head found early =>
      exact h.completeRead hn hadmits head found (fun hc => absurd hc early) fun _ => rfl
    | answerRead head found last chosen =>
      exact h.completeRead hn hadmits head found (fun _ => ⟨_, rfl⟩) fun hc => absurd last hc
    | repair task => exact h.idle hadmits rfl rfl (replies_broadcast _ _) rfl h.ids rfl rfl rfl rfl
    | reconnected task bound =>
      exact h.idle hadmits rfl rfl (replies_handoff _ _) rfl h.ids rfl rfl rfl rfl
    | repairNewer => exact h.idle hadmits rfl rfl (replies_broadcast _ _) rfl h.ids rfl rfl rfl rfl
    | _ => exact h.idle hadmits rfl rfl rfl rfl h.ids rfl rfl rfl rfl
  · cases hstep

/-- The list of replicas does not change. -/
theorem size_step {codecs : Codecs} {s' : Session} {ev : Event}
    (hstep : s.step codecs ev = some s') : s'.size = s.size := by
  simp only [Session.step] at hstep
  split at hstep
  · obtain ⟨⟨c', es⟩, hhandle, rfl⟩ := Option.map_eq_some_iff.mp hstep
    cases acts_of_handle hhandle <;> rfl
  · cases hstep

/-- A completion for `u` at the head of its strand is handled and does not fault. -/
def Takes (codecs : Codecs) (s : Session) (u : String) : Kind → Prop
  | .get => ∀ msg rest v, s.server.readStrand = .complete msg :: rest → msg.uuid = u →
      ∃ s', s.step codecs (.runRead v) = some s'
  | .put => ∀ msg sender rest, s.server.writeStrand = .complete msg sender :: rest → msg.uuid = u →
      ∃ s', s.step codecs .runWrite = some s'

/-- A completion for a request that is held is handled, not thrown. -/
theorem Good.takes {codecs : Codecs} (h : s.Good) {κ : Kind} {r : Request} {u : String}
    (hr : r ∈ s.requests κ) (hholds : r.Holds u) : s.Takes codecs u κ := by
  obtain ⟨e, he⟩ := (h.table κ).found hr hholds
  cases κ with
  | get =>
    rintro msg rest v head rfl
    obtain ⟨p, hp, _⟩ := Option.map_eq_some_iff.mp he
    have hadmits : s.Admits (.runRead v) := by
      refine ⟨?_, List.forall_mem_nil _, rfl⟩
      simp only [draws, head]
      exact List.forall_mem_nil _
    simp only [Session.step, if_pos hadmits, handle, head, performRead, Coordinator.completeRead,
      hp]
    split
    · -- the reply takes the newest of the results, and there is one
      cases hresults : p.results with
      | nil => exact absurd hresults (h.results hp)
      | cons x xs => exact ⟨_, rfl⟩
    · exact ⟨_, rfl⟩
  | put =>
    rintro msg sender rest head rfl
    have hadmits : s.Admits .runWrite := ⟨List.forall_mem_nil _, List.forall_mem_nil _, rfl⟩
    have he' : s.server.pendingWrites.lookup msg.uuid = some e := he
    simp only [Session.step, if_pos hadmits, handle, head, performWrite, Coordinator.completeWrite,
      he']
    exact ⟨_, rfl⟩

/-- **One answer to each request.** In every run of a coordinator with `n` replicas a request
has been sent one reply if it is due and none otherwise: `1 ≤ c ≤ n + 1` and `c - 1`
completions for its uuid have been handled. Every reply sent is one of these, and no
completion for a request that has been entered makes the coordinator fault. -/
theorem answered_once {codecs : Codecs} {config : Config} (hn : config.replicas.length < 2 ^ 31)
    {file hintFile : List UInt8} {evs : List Event} {s : Session}
    (hrun : exec (step codecs) { server := .create config file hintFile } evs = some s) :
    (∀ κ, ∀ r ∈ s.requests κ, r.Served κ config.replicas.length) ∧
    s.sent.Perm (s.all.flatMap Request.replies) ∧
    ∀ κ, ∀ r ∈ s.requests κ, ∀ u, r.Holds u → s.Takes codecs u κ := by
  -- the number of replicas never changes, so the bound holds in every state
  have hgood : s.Good ∧ s.size = config.replicas.length := by
    refine exec_inv (P := fun s => s.Good ∧ s.size = config.replicas.length) ?_
      ⟨good_create config file hintFile, rfl⟩ hrun
    rintro s ev s' ⟨hs, hsize⟩ hstep
    exact ⟨hs.step (hsize ▸ hn) hstep, (size_step hstep).trans hsize⟩
  obtain ⟨hgood, hsize⟩ := hgood
  refine ⟨fun κ r hr => ?_, hgood.sent, fun κ r hr u hholds => hgood.takes hr hholds⟩
  exact hsize ▸ (hgood.table κ).served r hr

/-- A server with two replicas. -/
def pairOfReplicas : Config :=
  ⟨"127.0.0.1", 9001, [("127.0.0.1", "9002"), ("127.0.0.1", "9003")], .other⟩

/-- A put with consistency 2 and a get with consistency 1; two completions for the put. -/
def pairEvents : List Event :=
  [.client 0 (.putKey ⟨7, 5, "a", 2⟩) ⟨1, 0⟩ "u", .client 1 (.getKey ⟨8, 5, 1⟩) ⟨1, 0⟩ "",
    .runWrite, .server (.outgoing 0) (.writeComplete ⟨"u"⟩),
    .server (.outgoing 1) (.writeComplete ⟨"u"⟩), .runWrite, .runWrite]

/-- A put and a get at a server with two replicas have one reply each. -/
theorem answered_once_pair : ∃ s,
    exec (step ⟨firstCodec, hintCodec⟩) { server := .create pairOfReplicas [] [] } pairEvents =
      some s ∧
    s.sent = [(1, .getKeyResp ⟨8, 5, ""⟩), (0, .putKeyResp ⟨7, 5⟩)] ∧
    ∀ κ, ∀ r ∈ s.requests κ, r.Served κ pairOfReplicas.replicas.length := by
  obtain ⟨s, hrun, hsent⟩ : ∃ s, exec (step ⟨firstCodec, hintCodec⟩)
      { server := .create pairOfReplicas [] [] } pairEvents = some s ∧
      s.sent = [(1, .getKeyResp ⟨8, 5, ""⟩), (0, .putKeyResp ⟨7, 5⟩)] := ⟨_, rfl, rfl⟩
  exact ⟨s, hrun, hsent, (answered_once (by decide) hrun).1⟩

end Session

end Cs457.Kv
