import Cs457.Lib.Ownership
import Cs457.Lib.Transition
import Mathlib.Data.Finset.Basic

/-!
# HTTP server — descriptors

The objects of `Socket` and `File` own the descriptors of the process. A program constructs them,
moves them into each other and destroys them. An object is used by one thread at a time, so what
the threads of the connections do with theirs is one sequence of such operations.

* **`Owned.step`** — each operation is one of the operations on a table of owners, or two of them.
* **`descriptors_owned`** — no descriptor is closed twice, closed by another than its owner, or left
  open.
-/

namespace Cs457.Http

open Ownership Transition

/-! ## The classes -/

inductive Kind where
  | socket
  | file
  deriving DecidableEq, Repr

/-- `Socket::close`: the argument of `shutdown` and `::close`, if they are called, and `d_socket`
after it. -/
def Socket.close (dSocket : ℤ) : Option ℤ × ℤ :=
  if 0 < dSocket then (some dSocket, dSocket) else (none, dSocket)

/-- `File::close`: the argument of `::close`, if it is called, and `d_fd` after it. -/
def File.close (dFd : ℤ) : Option ℤ × ℤ := if dFd ≠ -1 then (some dFd, -1) else (none, dFd)

def Kind.close : Kind → ℤ → Option ℤ × ℤ
  | .socket => Socket.close
  | .file => File.close

/-- What the move constructor leaves in the other object. -/
def Kind.movedFrom : Kind → ℤ
  | .socket => 0
  | .file => -1

/-- An object, with `d_socket` or `d_fd`. -/
structure Object where
  kind : Kind
  fd : ℤ
  deriving DecidableEq, Repr

/-- The descriptor that the destructor would close. -/
def Object.owns (o : Object) : Option ℤ := (o.kind.close o.fd).1

/-! ## The process -/

/-- The objects, the open descriptors, and what `::close` was called with that was not open. -/
structure Process (ι : Type) where
  object : ι → Option Object := fun _ => none
  opened : Finset ℤ
  stray : List ℤ := []

inductive Operation (ι : Type) where
  /-- a constructor with what `accept`, `socket` or `open` returns, or -1 -/
  | construct (x : ι) (kind : Kind) (result : ℤ)
  /-- `x` is constructed from `std::move(y)` -/
  | moveConstruct (x y : ι)
  /-- `x = std::move(y)` -/
  | moveAssign (x y : ι)
  | destroy (x : ι)
  deriving DecidableEq, Repr

namespace Process

variable {ι : Type} [DecidableEq ι]

def set (s : Process ι) (x : ι) (o : Option Object) : Process ι :=
  { s with object := Function.update s.object x o }

/-- `::close`. -/
def sysClose (s : Process ι) (fd : ℤ) : Process ι :=
  { s with
    opened := s.opened.erase fd
    stray := if fd ∈ s.opened then s.stray else fd :: s.stray }

/-- `x.close()`. -/
def close (s : Process ι) (x : ι) (o : Object) : Process ι :=
  let (fd, field) := o.kind.close o.fd
  let s := match fd with
    | some fd => s.sysClose fd
    | none => s
  s.set x (some { o with fd := field })

/-- `operator=`, for two objects of one class. That of `Socket` begins with `this != &other`, that
of `File` does not. -/
def assign (s : Process ι) (x y : ι) (o : Object) : Option (Process ι) :=
  if o.kind = .socket ∧ x = y then some s
  else do
    let s := s.close x o
    let other ← s.object y
    return (s.set x (some { o with fd := other.fd })).set y (some { other with fd := -1 })

/-- An operation. A system call returns -1 or a descriptor that is not open. -/
def step (s : Process ι) : Operation ι → Option (Process ι)
  | .construct x kind result =>
    if s.object x = none then
      if result = -1 then some (s.set x (some ⟨kind, -1⟩))
      else if 0 ≤ result ∧ result ∉ s.opened then
        some { s.set x (some ⟨kind, result⟩) with opened := insert result s.opened }
      else none
    else none
  | .moveConstruct x y =>
    match s.object x, s.object y with
    | none, some other =>
      some ((s.set x (some other)).set y (some { other with fd := other.kind.movedFrom }))
    | _, _ => none
  | .moveAssign x y =>
    match s.object x, s.object y with
    | some o, some other => if o.kind = other.kind then s.assign x y o else none
    | _, _ => none
  | .destroy x =>
    match s.object x with
    | some o => some ((s.close x o).set x none)
    | none => none

/-- Nothing has been constructed; the process has what it was started with. -/
def start (base : Finset ℤ) : Process ι where
  opened := base

/-! ## The table of owners -/

/-- What the objects own. -/
def table (s : Process ι) : Table ι ℤ := ⟨fun x => (s.object x).bind Object.owns, s.opened⟩

/-- **The invariant**: the table is sound, and no call of `::close` was in vain. -/
structure Owned (base : Finset ℤ) (s : Process ι) : Prop where
  sound : Sound (base : Set ℤ) s.table
  clean : s.stray = []

variable {base : Finset ℤ} {s s' : Process ι} {x y : ι} {o : Object}

/-- An object with -1 owns nothing. -/
theorem owns_of_minus (kind : Kind) : Object.owns ⟨kind, -1⟩ = none := by
  cases kind <;> decide

/-- Nor does one that has been moved from. -/
theorem owns_movedFrom (kind : Kind) : Object.owns ⟨kind, kind.movedFrom⟩ = none := by
  cases kind <;> decide

/-- A descriptor that is not that of the standard input is owned by the object of any class. -/
theorem owns_of_pos (kind : Kind) {fd : ℤ} (h : 0 < fd) : Object.owns ⟨kind, fd⟩ = some fd := by
  cases kind with
  | socket => simp only [Object.owns, Kind.close, Socket.close, if_pos h]
  | file =>
    have hne : fd ≠ -1 := by omega
    simp only [Object.owns, Kind.close, File.close, if_pos hne]

theorem object_set (s : Process ι) (x : ι) (o : Option Object) :
    (s.set x o).object = Function.update s.object x o := rfl

theorem set_set (s : Process ι) (x : ι) (o o' : Option Object) :
    (s.set x o).set x o' = s.set x o' := by
  simp only [set, Function.update_idem]

/-- An object that is set owns what its descriptor says. -/
theorem table_set (s : Process ι) (x : ι) (o : Option Object) :
    (s.set x o).table = ⟨Function.update s.table.owner x (o.bind Object.owns), s.opened⟩ := by
  simp only [table, set]
  congr 1
  funext z
  by_cases hz : z = x
  · rw [hz, Function.update_self, Function.update_self]
  · rw [Function.update_of_ne hz, Function.update_of_ne hz]

omit [DecidableEq ι] in
theorem owner_eq (hx : s.object x = some o) : s.table.owner x = o.owns := by
  simp only [table, hx, Option.bind_some]

/-- Setting an object to what owns as much changes nothing in the table. -/
theorem table_set_same {o' : Option Object} (h : o'.bind Object.owns = s.table.owner x) :
    (s.set x o').table = s.table := by
  rw [table_set, h, Function.update_eq_self]
  rfl

theorem object_close (s : Process ι) (x : ι) (o : Object) : (s.close x o).object
    = Function.update s.object x (some { o with fd := (o.kind.close o.fd).2 }) := by
  cases hclose : o.kind.close o.fd with
  | mk fd field =>
    simp only [close, hclose]
    cases fd <;> rfl

/-- A `File` that has been closed says so. -/
theorem File.close_field (dFd : ℤ) : (File.close dFd).2 = -1 := by
  unfold File.close
  split
  · rfl
  · next h => exact not_not.mp h

/-- `close` closes what the object owns, and nothing else: what is in the object after it is
overwritten or destroyed. -/
theorem close_owned (h : Owned base s) (hx : s.object x = some o) (o' : Option Object)
    (ho' : o'.bind Object.owns = none) : Owned base ((s.close x o).set x o') := by
  -- A moved-from object owns nothing, and its close is no system call.
  cases hclose : (o.kind.close o.fd).1 with
  | none =>
    have hsame : (s.close x o).set x o' = s.set x o' := by
      simp only [close, hclose, set_set]
    rw [hsame]
    refine ⟨?_, h.clean⟩
    rw [table_set_same (ho'.trans ((owner_eq hx).trans hclose).symm)]
    exact h.sound
  | some fd =>
    have hsame : (s.close x o).set x o' = (s.sysClose fd).set x o' := by
      simp only [close, hclose, set_set]
    have howner : s.table.owner x = some fd := (owner_eq hx).trans hclose
    -- The object owns the descriptor, so it is open and the close does not fail.
    have hopen : fd ∈ s.opened := Finset.mem_coe.mp (h.sound.opened x fd howner)
    rw [hsame]
    refine ⟨?_, ?_⟩
    · have hreleased := h.sound.release howner
      rw [table_set, ho']
      have hsets : ((s.opened.erase fd : Finset ℤ) : Set ℤ) = (s.opened : Set ℤ) \ {fd} :=
        Finset.coe_erase fd s.opened
      simp only [sysClose, hsets]
      exact hreleased
    · simp only [set, sysClose, if_pos hopen, h.clean]

/-- Moving what `y` holds to `x`, which owns nothing. -/
theorem move_owned (h : Owned base s) (hxy : x ≠ y) (hx : s.table.owner x = none)
    {other o' left : Object} (hy : s.object y = some other) (ho' : o'.owns = other.owns)
    (hleft : left.owns = none) : Owned base ((s.set x (some o')).set y (some left)) := by
  refine ⟨?_, h.clean⟩
  have hmoved := h.sound.transfer hxy hx
  rw [owner_eq hy] at hmoved
  rw [table_set, table_set, Option.bind_some, Option.bind_some, ho', hleft]
  exact hmoved

/-- A constructor that gets a descriptor. The standard input is open, so it is not 0. -/
theorem construct_owned (hzero : 0 ∈ base) (h : Owned base s) (hx : s.object x = none) (kind : Kind)
    {result : ℤ} (hnonneg : 0 ≤ result) (hfresh : result ∉ s.opened) :
    Owned base { s.set x (some ⟨kind, result⟩) with opened := insert result s.opened } := by
  have hne : result ≠ 0 := by
    rintro rfl
    exact hfresh (Finset.mem_coe.mp (h.sound.kept (Finset.mem_coe.mpr hzero)))
  have howner : s.table.owner x = none := by simp only [table, hx, Option.bind_none]
  have hacquired := h.sound.acquire howner fun hmem => hfresh (Finset.mem_coe.mp hmem)
  have htable : Process.table
      { s.set x (some ⟨kind, result⟩) with opened := insert result s.opened }
      = ⟨Function.update s.table.owner x (some result), insert result s.table.opened⟩ := by
    have hset := congrArg Table.owner (table_set s x (some ⟨kind, result⟩))
    rw [Option.bind_some, owns_of_pos kind (lt_of_le_of_ne hnonneg hne.symm)] at hset
    simp only [table] at hset ⊢
    rw [hset, Finset.coe_insert]
  refine ⟨?_, h.clean⟩
  rw [htable]
  exact hacquired

/-- `operator=`, of either class. -/
theorem assign_owned (h : Owned base s) {other : Object} (hx : s.object x = some o)
    (hy : s.object y = some other) (hkind : o.kind = other.kind)
    (hassign : s.assign x y o = some s') : Owned base s' := by
  have hminus : (some { o with fd := -1 } : Option Object).bind Object.owns = none :=
    owns_of_minus o.kind
  unfold assign at hassign
  split at hassign
  · rw [← Option.some.inj hassign]
    exact h
  · next hguard =>
    obtain ⟨other', hother', hs'⟩ := Option.bind_eq_some_iff.mp hassign
    obtain rfl := Option.some.inj hs'
    have hclosed := close_owned h hx _ hminus
    by_cases hxy : x = y
    · -- a `File` that is moved into itself: it has been closed
      subst hxy
      have hfile : o.kind = .file := by
        cases hk : o.kind with
        | socket => exact absurd ⟨hk, rfl⟩ hguard
        | file => rfl
      have hafter : other' = ⟨o.kind, -1⟩ := by
        rw [object_close, Function.update_self, Option.some.injEq] at hother'
        rw [← hother', hfile]
        exact congrArg _ (File.close_field o.fd)
      rw [set_set, hafter]
      exact hclosed
    · rw [object_close, Function.update_of_ne (Ne.symm hxy), hy, Option.some.injEq] at hother'
      subst hother'
      have howner : ((s.close x o).set x (some { o with fd := -1 })).table.owner x = none := by
        rw [table_set]
        exact (Function.update_self _ _ _).trans hminus
      have hother : ((s.close x o).set x (some { o with fd := -1 })).object y = some other := by
        rw [object_set, Function.update_of_ne (Ne.symm hxy), object_close,
          Function.update_of_ne (Ne.symm hxy), hy]
      have hsame : Object.owns { o with fd := other.fd } = other.owns := by
        rw [hkind]
      rw [← set_set _ x (some { o with fd := -1 })]
      exact move_owned hclosed hxy howner hother hsame (owns_of_minus other.kind)

/-- **An operation** keeps the invariant. -/
theorem Owned.step (hzero : 0 ∈ base) (h : Owned base s) {a : Operation ι}
    (hstep : s.step a = some s') : Owned base s' := by
  cases a with
  | construct x kind result =>
    simp only [Process.step] at hstep
    split at hstep
    · next hx =>
      -- A failed system call leaves an object that owns nothing.
      split at hstep
      · next hminus =>
        obtain rfl := Option.some.inj hstep
        refine ⟨?_, h.clean⟩
        rw [table_set_same]
        · exact h.sound
        · simp only [table, hx, Option.bind_none, Option.bind_some, owns_of_minus]
      · split at hstep
        · next hresult =>
          obtain rfl := Option.some.inj hstep
          exact construct_owned hzero h hx kind hresult.1 hresult.2
        · cases hstep
    · cases hstep
  | moveConstruct x y =>
    simp only [Process.step] at hstep
    split at hstep
    · next other hx hy =>
      obtain rfl := Option.some.inj hstep
      -- A constructor makes a new object, so it is not the one moved from.
      have hxy : x ≠ y := by
        rintro rfl
        rw [hx] at hy
        cases hy
      exact move_owned h hxy (by simp only [table, hx, Option.bind_none]) hy rfl
        (owns_movedFrom other.kind)
    · cases hstep
  | moveAssign x y =>
    simp only [Process.step] at hstep
    split at hstep
    · next o other hx hy =>
      split at hstep
      · next hkind => exact assign_owned h hx hy hkind hstep
      · cases hstep
    · cases hstep
  | destroy x =>
    simp only [Process.step] at hstep
    split at hstep
    · next o hx =>
      obtain rfl := Option.some.inj hstep
      exact close_owned h hx none rfl
    · cases hstep

end Process

/-- **Descriptors.** In every run of a program that constructs, moves and destroys sockets and
files, `::close` is never called with what is not open, what is open was open before or is owned by
an object, and no two objects own the same, so that none of them closes another's. -/
theorem descriptors_owned {ι : Type} [DecidableEq ι] {base : Finset ℤ} (hzero : 0 ∈ base)
    {as : List (Operation ι)} {s : Process ι}
    (hrun : exec Process.step (Process.start base) as = some s) :
    s.stray = [] ∧
    (∀ fd, fd ∈ s.opened ↔ fd ∈ base ∨ ∃ x o, s.object x = some o ∧ o.owns = some fd) ∧
    (∀ x y o o' fd, s.object x = some o → s.object y = some o' →
      o.owns = some fd → o'.owns = some fd → x = y) ∧
    ∀ x o fd, s.object x = some o → o.owns = some fd → fd ∉ base := by
  have hstart : Process.Owned base (Process.start base : Process ι) := ⟨Sound.start _, rfl⟩
  have howned := exec_inv (fun _ _ _ h hstep => Process.Owned.step hzero h hstep) hstart hrun
  have howner : ∀ {x o fd}, s.object x = some o → o.owns = some fd →
      s.table.owner x = some fd := fun hx hfd => (Process.owner_eq hx).trans hfd
  refine ⟨howned.clean, fun fd => ⟨fun hfd => ?_, fun hfd => ?_⟩, fun x y o o' fd hx hy hfd hfd' =>
    howned.sound.unique x y fd (howner hx hfd) (howner hy hfd'), fun x o fd hx hfd hbase =>
    howned.sound.foreign x fd (howner hx hfd) (Finset.mem_coe.mpr hbase)⟩
  · rcases howned.sound.held fd (Finset.mem_coe.mpr hfd) with hbase | ⟨x, hx⟩
    · exact Or.inl (Finset.mem_coe.mp hbase)
    · obtain ⟨o, ho, howns⟩ := Option.bind_eq_some_iff.mp hx
      exact Or.inr ⟨x, o, ho, howns⟩
  · rcases hfd with hbase | ⟨x, o, hx, howns⟩
    · exact Finset.mem_coe.mp (howned.sound.kept (Finset.mem_coe.mpr hbase))
    · exact Finset.mem_coe.mp (howned.sound.opened x fd (howner hx howns))

/-- A connection is accepted and handed to its thread, which moves the file into the response. -/
def oneRequest : List (Operation ℕ) :=
  [.construct 0 .socket 3, .moveConstruct 1 0, .destroy 0, .construct 2 .file 4, .moveConstruct 3 2,
    .destroy 2]

theorem descriptors_owned_request : ∃ s,
    exec Process.step (Process.start {0, 1, 2}) oneRequest = some s ∧ s.stray = [] ∧
      ∀ fd, fd ∈ s.opened ↔
        fd ∈ ({0, 1, 2} : Finset ℤ) ∨ ∃ x o, s.object x = some o ∧ o.owns = some fd := by
  have hruns : (exec Process.step (Process.start {0, 1, 2}) oneRequest).isSome := by
    decide
  obtain ⟨s, hs⟩ := Option.isSome_iff_exists.mp hruns
  obtain ⟨hstray, hopened, _⟩ := descriptors_owned (by decide) hs
  exact ⟨s, hs, hstray, hopened⟩

end Cs457.Http
