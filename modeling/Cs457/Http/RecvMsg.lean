import Cs457.Http.Request

/-!
# HTTP server — `recv_msg`

`recv_msg` should cut the stream of a connection into messages. It searches each result of
`recv` by itself, puts what it has searched into the answer but not what it has found, and cuts
the buffer of leftovers, which is empty, at the end of what it has found elsewhere.

* **`recvMsg_unsent_nil`** — no call returns anything.
* **`reassembles_iff`** — when the calls return the messages of the stream.
-/

namespace Cs457.Http

/-! ## The regular expression -/

/-- The alternatives of `g_http_msg_end`. -/
def delimiters : List Bytes :=
  [crlf ++ crlf, [carriageReturn, carriageReturn], [newline, newline]]

/-- The length of a match that begins here. -/
def matchHere (s : Bytes) : Option ℕ :=
  (delimiters.find? fun d => d.isPrefixOf s).map List.length

/-- `regex_search`: where the first match ends, `position() + length()`. -/
def searchEnd : Bytes → Option ℕ
  | [] => none
  | b :: rest =>
    match matchHere (b :: rest) with
    | some n => some n
    | none => (searchEnd rest).map (· + 1)

/-- The pieces of a stream up to and with each delimiter. A delimiter has at least two bytes, so
the length of the stream bounds their number. -/
def pieces : ℕ → Bytes → List Bytes
  | 0, _ => []
  | n + 1, stream =>
    match searchEnd stream with
    | none => []
    | some stop => stream.take stop :: pieces n (stream.drop stop)

def messages (stream : Bytes) : List Bytes := pieces stream.length stream

/-! ## The calls -/

/-- The exceptions of `recv_msg`. -/
inductive RecvFault where
  | socketClosed
  | outOfRange
  deriving DecidableEq, Repr

/-- A connection: `d_unsent_buf`, what `recv` will still return, and what it has returned. -/
structure Connection where
  unsent : Bytes := []
  chunks : List Bytes
  received : Bytes := []
  deriving DecidableEq, Repr

/-- The loop of `recv_msg`, with `buf` and `ret`, and what follows it. -/
def recvLoop (unsent received : Bytes) : List Bytes → Bytes → Bytes →
    Except RecvFault Bytes × Connection
  | chunks, buf, ret =>
    match searchEnd buf with
    | some stop =>
      let ret := ret ++ unsent.take stop
      -- `substr` throws when it is to start behind the end
      if stop + 1 > unsent.length then (.error .outOfRange, ⟨unsent, chunks, received⟩)
      else (.ok ret, ⟨(unsent.drop (stop + 1)).take (unsent.length - stop), chunks, received⟩)
    | none =>
      match chunks with
      -- `recv` finds the socket closed
      | [] => (.error .socketClosed, ⟨unsent, [], received⟩)
      | chunk :: rest => recvLoop unsent (received ++ chunk) rest chunk (ret ++ buf)

/-- `recv_msg`. -/
def recvMsg (c : Connection) : Except RecvFault Bytes × Connection :=
  -- `buf` and `ret` both start as copies of `d_unsent_buf`
  recvLoop c.unsent c.received c.chunks c.unsent c.unsent

/-- What a number of calls return, and the connection after them. -/
def recvMsgs : ℕ → Connection → List Bytes × Connection
  | 0, c => ([], c)
  | n + 1, c =>
    match recvMsg c with
    | (.ok ret, c') => (ret :: (recvMsgs n c').1, (recvMsgs n c').2)
    | (.error _, c') => recvMsgs n c'

/-- **The contract of `recv_msg`**: after any number of calls the messages of the stream, that many
or all there are, have been returned, and they and the leftovers are what has been received. -/
def Reassembles (chunks : List Bytes) : Prop :=
  ∀ n, (recvMsgs n { chunks := chunks }).1 = (messages chunks.flatten).take n ∧
    (recvMsgs n { chunks := chunks }).1.flatten ++ (recvMsgs n { chunks := chunks }).2.unsent
      = (recvMsgs n { chunks := chunks }).2.received

/-! ## What the calls return -/

/-- Without leftovers the loop ends with an exception, and leaves none. -/
theorem recvLoop_unsent_nil (received : Bytes) (chunks : List Bytes) (buf ret : Bytes) :
    ∃ fault rest later, recvLoop [] received chunks buf ret
      = (.error fault, ⟨[], rest, received ++ later⟩) := by
  induction chunks generalizing received buf ret with
  | nil =>
    unfold recvLoop
    cases searchEnd buf with
    -- the cut starts behind the end of the leftovers, which are empty
    | some stop =>
      exact ⟨.outOfRange, [], [], by rw [List.append_nil]; exact if_pos (Nat.succ_pos _)⟩
    | none => exact ⟨.socketClosed, [], [], by rw [List.append_nil]⟩
  | cons chunk chunks ih =>
    unfold recvLoop
    cases searchEnd buf with
    | some stop =>
      refine ⟨.outOfRange, chunk :: chunks, [], ?_⟩
      rw [List.append_nil]
      exact if_pos (Nat.succ_pos _)
    | none =>
      obtain ⟨fault, rest, later, hloop⟩ := ih (received ++ chunk) chunk (ret ++ buf)
      exact ⟨fault, rest, chunk ++ later, by rw [← List.append_assoc]; exact hloop⟩

/-- **No call returns anything.** -/
theorem recvMsgs_unsent_nil (n : ℕ) {c : Connection} (h : c.unsent = []) :
    (recvMsgs n c).1 = [] ∧ (recvMsgs n c).2.unsent = [] ∧
      ∃ later, (recvMsgs n c).2.received = c.received ++ later := by
  induction n generalizing c with
  | zero => exact ⟨rfl, h, [], (List.append_nil _).symm⟩
  | succ n ih =>
    obtain ⟨fault, rest, later, hcall⟩ := recvLoop_unsent_nil c.received c.chunks [] []
    have hmsg : recvMsg c = (.error fault, ⟨[], rest, c.received ++ later⟩) := by
      rw [recvMsg, h, hcall]
    obtain ⟨hnone, hunsent, later', hreceived⟩ := ih (c := ⟨[], rest, c.received ++ later⟩) rfl
    simp only [recvMsgs, hmsg]
    exact ⟨hnone, hunsent, later ++ later', by rw [hreceived, List.append_assoc]⟩

/-- The first call takes a chunk, if there is one. -/
theorem received_of_call (chunk : Bytes) (rest : List Bytes) :
    ∃ later, (recvMsgs 1 { chunks := chunk :: rest }).2.received = chunk ++ later := by
  obtain ⟨fault, rest', later, hcall⟩ := recvLoop_unsent_nil ([] ++ chunk) rest chunk ([] ++ [])
  have hmsg : recvMsg { chunks := chunk :: rest }
      = (.error fault, ⟨[], rest', [] ++ chunk ++ later⟩) := hcall
  refine ⟨later, ?_⟩
  simp only [recvMsgs, hmsg, List.nil_append]

/-- **When messages are reassembled.** Only a connection that delivers nothing is read right. -/
theorem reassembles_iff (chunks : List Bytes) (hchunks : ∀ c ∈ chunks, c ≠ []) :
    Reassembles chunks ↔ chunks = [] := by
  constructor
  · intro h
    cases chunks with
    | nil => rfl
    | cons chunk rest =>
      -- after one call the chunk has been received and is nowhere
      obtain ⟨-, hbytes⟩ := h 1
      obtain ⟨hnone, hunsent, -⟩ := recvMsgs_unsent_nil 1 (c := { chunks := chunk :: rest }) rfl
      obtain ⟨later, hreceived⟩ := received_of_call chunk rest
      rw [hnone, hunsent, hreceived] at hbytes
      have hchunk := (List.append_eq_nil_iff.mp hbytes.symm).1
      exact absurd hchunk (hchunks chunk List.mem_cons_self)
  · rintro rfl n
    have hcalls : recvMsgs n { chunks := [] } = ([], { chunks := [] }) := by
      induction n with
      | zero => rfl
      | succ n ih => exact ih
    rw [hcalls]
    exact ⟨List.take_nil.symm, rfl⟩

/-- One chunk that holds a whole message is not reassembled. -/
theorem reassembles_iff_one : Reassembles [crlf ++ crlf] ↔ [crlf ++ crlf] = [] :=
  reassembles_iff [crlf ++ crlf] (by decide)

/-- A message that arrives whole is thrown away with an exception. -/
theorem message_lost : ¬ ∀ chunks : List Bytes, (∀ c ∈ chunks, c ≠ []) → Reassembles chunks := by
  intro h
  obtain ⟨hmessages, -⟩ := h [crlf ++ crlf] (by decide) 1
  exact absurd hmessages (by decide)

end Cs457.Http
