import Cs457.Http.Request

/-!
# HTTP server — sending

`StreamSocket::send` hands a buffer to the kernel until all of it is taken, and the overload for
an `ifstream` does so with one block of the file after the other; `send_file` leaves the reading
to `sendfile`. What the kernel answers is a sequence of results, one for each call.

* **`sent_prefix`** — what the two `send`s pass to the kernel.
* **`sendFile_iff`** — when `send_file` ends.
-/

namespace Cs457.Http

/-- The results of a system call, in the order of the calls: the text of `errno`, or a count. -/
abbrev Results := ℕ → Except Bytes ℕ

/-- The results of the calls after the first. -/
def Results.later (results : Results) : Results := fun n => results (n + 1)

/-- The end of a `send`: the bytes that the kernel has taken, the results that are left, and the
text of the exception, if there is one. -/
structure Sent where
  passed : Bytes
  results : Results
  fault : Option Bytes := none

/-- `send` of a buffer. -/
def send (results : Results) (buffer : Bytes) : Sent :=
  if _ : buffer = [] then { passed := [], results := results }
  else
    match results 0 with
    | .error what => { passed := [], results := results.later, fault := some what }
    | .ok sent =>
      let taken := buffer.take sent
      -- the kernel has the bytes when the count turns out to be too large
      if sent > buffer.length then
        { passed := taken, results := results.later,
          fault := some (ascii "Sent more than requested!") }
      else if _ : sent = 0 then
        { passed := [], results := results.later, fault := some (ascii "Nothing was sent!") }
      else
        let rest := send results.later (buffer.drop sent)
        { rest with passed := taken ++ rest.passed }
termination_by buffer.length
decreasing_by
  have := List.length_pos_iff.mpr ‹¬ buffer = []›
  rw [List.length_drop]
  omega

/-- An `ifstream`: what is left of the file, and two of its state bits. -/
structure InputStream where
  rest : Bytes
  eof : Bool := false
  fail : Bool := false

/-- `read`. A short read sets both bits. -/
def InputStream.read (input : InputStream) (size : ℕ) : Bytes × InputStream :=
  -- the sentry of a stream that is not good sets the fail bit
  if input.eof ∨ input.fail then ([], { input with fail := true })
  else if input.rest.length < size then (input.rest, { rest := [], eof := true, fail := true })
  else (input.rest.take size, { input with rest := input.rest.drop size })

/-- `sizeof(buf)`. -/
def blockSize : ℕ := 4 * 1024

/-- A bound on the reads that are left. -/
def InputStream.reads (input : InputStream) : ℕ := if input.fail then 0 else input.rest.length + 1

/-- A read that succeeds leaves fewer to come. -/
theorem InputStream.reads_read {input : InputStream} (h : input.fail = false) :
    (input.read blockSize).2.reads < input.reads := by
  have hreads : input.reads = input.rest.length + 1 := by
    rw [reads, h]
    rfl
  rw [hreads]
  unfold read
  split
  · exact Nat.succ_pos _
  · split
    · exact Nat.succ_pos _
    · next hlen =>
      have hdrop : (input.rest.drop blockSize).length < input.rest.length := by
        rw [List.length_drop]
        have hsize : 0 < blockSize := by decide
        omega
      simp only [reads, h]
      exact Nat.succ_lt_succ hdrop

/-- `send` of an `ifstream`. -/
def sendStream (results : Results) (input : InputStream) : Sent :=
  -- the loop is left with the fail bit set, and then it throws
  if _ : input.fail = true then
    { passed := [], results := results, fault := some (ascii "Failure reading from ifstream") }
  else
    let buf := (input.read blockSize).1
    let input' := (input.read blockSize).2
    if buf.length > 0 ∧ input'.eof = false ∧ input'.fail = false ∧ buf.length ≤ blockSize then
      let first := send results buf
      if first.fault.isSome then first
      else
        let rest := sendStream first.results input'
        { rest with passed := first.passed ++ rest.passed }
    -- the last block, after which the source breaks out of the loop
    else if input'.eof then send results buf
    else sendStream results input'
termination_by input.reads
decreasing_by
  · exact InputStream.reads_read (by simpa using ‹¬ input.fail = true›)
  · exact InputStream.reads_read (by simpa using ‹¬ input.fail = true›)

/-! ## What is passed to the kernel -/

/-- The bytes of a `send` that ends without an exception are all passed, and else those up to
some point are. -/
def Sent.Of (sent : Sent) (bytes : Bytes) : Prop :=
  sent.passed <+: bytes ∧ (sent.fault = none → sent.passed = bytes)

/-- What has been sent is a prefix of the buffer, and all of it unless a send failed. -/
theorem send_of (results : Results) (buffer : Bytes) : (send results buffer).Of buffer := by
  fun_induction send results buffer with
  | case1 results => exact ⟨List.prefix_rfl, fun _ => rfl⟩
  | case2 results buffer hne what hresult => exact ⟨List.nil_prefix, fun h => (by cases h)⟩
  | case3 results buffer hne sent hresult taken hmore =>
    exact ⟨List.take_prefix sent buffer, fun h => (by cases h)⟩
  | case4 results buffer hne hresult => exact ⟨List.nil_prefix, fun h => (by cases h)⟩
  -- the bytes taken now, then those of the rest by induction
  | case5 results buffer hne sent hresult taken hle hpos rest ih =>
    have hsplit : taken ++ buffer.drop sent = buffer := List.take_append_drop sent buffer
    constructor
    · have hpassed := (List.prefix_append_right_inj taken).mpr ih.1
      rwa [hsplit] at hpassed
    · intro hfault
      show taken ++ rest.passed = buffer
      rw [ih.2 hfault, hsplit]

/-- A file that has just been opened. -/
def InputStream.opened (content : Bytes) : InputStream := { rest := content }

/-- A read from a stream in good state gets a whole block, or the end of the file. -/
theorem InputStream.read_cases {input : InputStream} (heof : input.eof = false)
    (hfail : input.fail = false) :
    (input.read blockSize).1 ++ (input.read blockSize).2.rest = input.rest ∧
      (((input.read blockSize).1.length = blockSize ∧ (input.read blockSize).2.eof = false ∧
          (input.read blockSize).2.fail = false) ∨
        ((input.read blockSize).2.rest = [] ∧ (input.read blockSize).2.eof = true)) := by
  have hgood : ¬ (input.eof = true ∨ input.fail = true) := by
    rw [heof, hfail]
    decide
  unfold read
  rw [if_neg hgood]
  split
  · exact ⟨List.append_nil _, Or.inr ⟨rfl, rfl⟩⟩
  · next hlen =>
    refine ⟨List.take_append_drop _ _, Or.inl ⟨?_, heof, hfail⟩⟩
    rw [List.length_take]
    omega

/-- The same of a stream, block by block. -/
theorem sendStream_of (results : Results) {input : InputStream} (heof : input.eof = false)
    (hfail : input.fail = false) : (sendStream results input).Of input.rest := by
  fun_induction sendStream results input with
  | case1 results input h => rw [hfail] at h; cases h
  | case2 results input h buf input' hblock first hfault =>
    obtain ⟨happend, -⟩ := InputStream.read_cases heof hfail
    obtain ⟨hpassed, -⟩ := send_of results buf
    refine ⟨hpassed.trans ⟨input'.rest, happend⟩, fun hnone => ?_⟩
    have hnone' : first.fault = none := hnone
    rw [hnone'] at hfault
    cases hfault
  | case3 results input h buf input' hblock first hfault rest ih =>
    obtain ⟨happend, -⟩ := InputStream.read_cases heof hfail
    have hfirst : first.passed = buf := (send_of results buf).2 (by simpa using hfault)
    obtain ⟨hpassed, hall⟩ := ih hblock.2.1 hblock.2.2.1
    have hsplit : buf ++ input'.rest = input.rest := happend
    constructor
    · show first.passed ++ rest.passed <+: input.rest
      rw [hfirst, ← hsplit]
      exact (List.prefix_append_right_inj buf).mpr hpassed
    · intro hnone
      show first.passed ++ rest.passed = input.rest
      rw [hfirst, hall hnone, hsplit]
  | case4 results input h buf input' hblock heof' =>
    -- the last block, which may be empty
    obtain ⟨happend, hcases⟩ := InputStream.read_cases heof hfail
    obtain ⟨-, hgood, -⟩ | ⟨hrest, -⟩ := hcases
    · exact absurd (hgood.symm.trans heof') (by decide)
    · rw [hrest, List.append_nil] at happend
      rw [← happend]
      exact send_of results buf
  | case5 results input h buf input' hblock heof' ih =>
    obtain ⟨-, hcases⟩ := InputStream.read_cases heof hfail
    obtain ⟨hlen, hgood⟩ | ⟨-, hend⟩ := hcases
    · exact absurd ⟨hlen ▸ by decide, hgood.1, hgood.2, hlen.le⟩ hblock
    · exact absurd hend heof'

/-- **Every byte is sent once.** Both `send`s pass all the bytes and return, or throw and have
passed the first of them, whatever the kernel answers. -/
theorem sent_prefix (results : Results) (bytes : Bytes) :
    ((send results bytes).passed <+: bytes ∧
      ((send results bytes).fault = none → (send results bytes).passed = bytes)) ∧
    (sendStream results (.opened bytes)).passed <+: bytes ∧
      ((sendStream results (.opened bytes)).fault = none →
        (sendStream results (.opened bytes)).passed = bytes) := by
  have hstream : (sendStream results (.opened bytes)).Of bytes := sendStream_of results rfl rfl
  exact ⟨send_of results bytes, hstream⟩

/-! ## `send_file` -/

/-- The variables of `send_file`: `passed` are the positions of the file whose bytes the kernel
has taken, in the order in which it took them. -/
structure FileSend where
  count : ℕ
  offset : ℕ := 0
  passed : List ℕ := []
  fault : Option Bytes := none

namespace FileSend

/-- The loop goes on. -/
def Running (s : FileSend) : Prop := s.count ≠ 0 ∧ s.fault = none

instance (s : FileSend) : Decidable s.Running := inferInstanceAs (Decidable (_ ∧ _))

/-- One turn of the loop. `sendfile` starts at the offset and advances it. -/
def turn (s : FileSend) : Except Bytes ℕ → FileSend
  | .error what => { s with fault := some (ascii "Sendfile failed: " ++ what) }
  | .ok sent =>
    let s' := { s with
      offset := s.offset + sent
      passed := s.passed ++ List.range' s.offset sent }
    if sent > s.count then { s' with fault := some (ascii "Sendfile sent more than requested") }
    else { s' with count := s.count - sent }

/-- The state after some turns, for as long as the loop goes on. -/
def turns (results : Results) (s : FileSend) : ℕ → FileSend
  | 0 => s
  | n + 1 =>
    let s' := turns results s n
    if s'.Running then s'.turn (results n) else s'

end FileSend

/-- `send_file` of `count` bytes, after some turns of its loop. -/
def sendFile (results : Results) (count : ℕ) : ℕ → FileSend := .turns results { count := count }

/-- **The contract of `send_file`**: it returns with all bytes sent, from the first on and in
order, or throws, and every turn of its loop sends something or is the last. -/
structure SendsAll (results : Results) (count : ℕ) : Prop where
  ends : ∃ n, ¬ (sendFile results count n).Running ∧
    ((sendFile results count n).fault = none →
      (sendFile results count n).passed = List.range count)
  progress : ∀ n, (sendFile results count n).Running →
    ¬ (sendFile results count (n + 1)).Running ∨
      (sendFile results count (n + 1)).count < (sendFile results count n).count

/-- The sum of the first results, when they are all positive counts. -/
def granted (results : Results) : ℕ → Option ℕ
  | 0 => some 0
  | n + 1 =>
    match granted results n, results n with
    | some total, .ok (sent + 1) => some (total + (sent + 1))
    | _, _ => none

/-- No result is 0 before the file is sent or a call fails. -/
def NeverZero (results : Results) (count : ℕ) : Prop :=
  ∀ n total, granted results n = some total → total < count → results n ≠ .ok 0

/-- The loop of `sendfile`: one more turn while it runs. -/
theorem sendFile_succ (results : Results) (count n : ℕ) : sendFile results count (n + 1) =
    if (sendFile results count n).Running then (sendFile results count n).turn (results n)
    else sendFile results count n := rfl

/-- What is sent is sent in order, and counted down unless there is an exception. -/
theorem sendFile_sound (results : Results) (count n : ℕ) :
    (sendFile results count n).passed = List.range (sendFile results count n).offset ∧
      ((sendFile results count n).fault = none →
        (sendFile results count n).offset + (sendFile results count n).count = count) := by
  induction n with
  | zero => exact ⟨rfl, fun _ => Nat.zero_add count⟩
  | succ n ih =>
    rw [sendFile_succ]
    -- only the state before the turn matters
    generalize sendFile results count n = s at ih
    split
    · next hrunning =>
      obtain ⟨hpassed, hcount⟩ := ih
      have hcount := hcount hrunning.2
      cases results n with
      | error what => exact ⟨hpassed, fun h => (by cases h)⟩
      | ok sent =>
        have hrange : s.passed ++ List.range' s.offset sent = List.range (s.offset + sent) := by
          rw [hpassed, List.range_eq_range', List.range_eq_range']
          have happend := @List.range'_append_1 0 s.offset sent
          rwa [Nat.zero_add] at happend
        simp only [FileSend.turn]
        split
        · exact ⟨hrange, fun h => (by cases h)⟩
        · next hle =>
          refine ⟨hrange, fun _ => ?_⟩
          show s.offset + sent + (s.count - sent) = count
          omega
    · exact ih

/-- A loop in which every turn sends something or is the last comes to its end. -/
theorem sendFile_ends {results : Results} {count : ℕ}
    (h : ∀ n, (sendFile results count n).Running → ¬ (sendFile results count (n + 1)).Running ∨
      (sendFile results count (n + 1)).count < (sendFile results count n).count) :
    ∃ n, ¬ (sendFile results count n).Running := by
  by_contra hnever
  have hrunning : ∀ n, (sendFile results count n).Running := fun n =>
    not_not.mp fun hn => hnever ⟨n, hn⟩
  -- each turn takes at least one off `count`
  have hdown : ∀ n, (sendFile results count n).count + n ≤ count := by
    intro n
    induction n with
    | zero => exact le_rfl
    | succ n ih =>
      rcases h n (hrunning n) with hstop | hless
      · exact absurd (hrunning (n + 1)) hstop
      · omega
  have hlast := hdown (count + 1)
  omega

/-- As long as the results are positive and do not add up to `count`, the loop goes on. -/
theorem sendFile_of_granted {results : Results} {count n total : ℕ}
    (h : granted results n = some total) (hlt : total < count) :
    (sendFile results count n).Running ∧ (sendFile results count n).count = count - total := by
  induction n generalizing total with
  | zero =>
    cases h
    exact ⟨⟨Nat.ne_of_gt hlt, rfl⟩, rfl⟩
  | succ n ih =>
    unfold granted at h
    split at h
    · next before sent hbefore hresult =>
      cases h
      obtain ⟨hrunning, hcount⟩ := ih hbefore (by omega)
      have hle : ¬ sent + 1 > (sendFile results count n).count := by omega
      rw [sendFile_succ, if_pos hrunning, hresult, FileSend.turn]
      simp only [if_neg hle]
      refine ⟨⟨?_, hrunning.2⟩, ?_⟩
      · show (sendFile results count n).count - (sent + 1) ≠ 0
        omega
      · show (sendFile results count n).count - (sent + 1) = count - (before + (sent + 1))
        omega
    · cases h

/-- Without a zero, the loop goes on only as long as the results do not add up to `count`. -/
theorem granted_of_running {results : Results} {count n : ℕ} (hzero : NeverZero results count)
    (h : (sendFile results count n).Running) :
    ∃ total, granted results n = some total ∧ total < count := by
  induction n with
  | zero => exact ⟨0, rfl, Nat.pos_of_ne_zero h.1⟩
  | succ n ih =>
    -- the loop that goes on now went on before, where the hypothesis gives the sum
    by_cases hrunning : (sendFile results count n).Running
    · obtain ⟨total, htotal, hlt⟩ := ih hrunning
      obtain ⟨-, hcount⟩ := sendFile_of_granted htotal hlt
      have hpos := hzero n total htotal hlt
      rw [sendFile_succ, if_pos hrunning] at h
      cases hresult : results n with
      | error what =>
        rw [hresult] at h
        exact absurd h.2 (fun h => by cases h)
      | ok sent =>
        cases sent with
        | zero => exact absurd hresult hpos
        | succ sent =>
          rw [hresult, FileSend.turn] at h
          simp only at h
          split at h
          · exact absurd h.2 (fun h => by cases h)
          · refine ⟨total + (sent + 1), by simp only [granted, htotal, hresult], ?_⟩
            have hleft : (sendFile results count n).count - (sent + 1) ≠ 0 := h.1
            omega
    · rw [sendFile_succ, if_neg hrunning] at h
      exact absurd h hrunning

/-- **When `send_file` ends.** It keeps its contract exactly when no call returns 0 before the file
is sent or a call has failed. -/
theorem sendFile_iff (results : Results) (count : ℕ) :
    SendsAll results count ↔ NeverZero results count := by
  constructor
  · intro h n total htotal hlt hresult
    -- a turn that sends nothing is neither the last nor does it count down
    obtain ⟨hrunning, hcount⟩ := sendFile_of_granted htotal hlt
    have hsame : sendFile results count (n + 1) = { sendFile results count n with
        offset := (sendFile results count n).offset + 0
        passed := (sendFile results count n).passed ++ [] } := by
      rw [sendFile_succ, if_pos hrunning, hresult]
      rfl
    rcases h.progress n hrunning with hstop | hless
    · rw [hsame] at hstop
      exact hstop hrunning
    · rw [hsame] at hless
      exact lt_irrefl _ hless
  · intro hzero
    have hprogress : ∀ n, (sendFile results count n).Running →
        ¬ (sendFile results count (n + 1)).Running ∨
          (sendFile results count (n + 1)).count < (sendFile results count n).count := by
      intro n hrunning
      obtain ⟨total, htotal, hlt⟩ := granted_of_running hzero hrunning
      refine or_iff_not_imp_left.mpr fun hnext => ?_
      obtain ⟨total', htotal', hlt'⟩ := granted_of_running hzero (not_not.mp hnext)
      obtain ⟨-, hcount⟩ := sendFile_of_granted htotal hlt
      obtain ⟨-, hcount'⟩ := sendFile_of_granted htotal' hlt'
      simp only [granted, htotal] at htotal'
      split at htotal'
      · next sent hbefore _ =>
        cases hbefore
        cases htotal'
        omega
      · cases htotal'
    refine ⟨?_, hprogress⟩
    obtain ⟨n, hn⟩ := sendFile_ends hprogress
    obtain ⟨hpassed, hcount⟩ := sendFile_sound results count n
    refine ⟨n, hn, fun hfault => ?_⟩
    have hzero : (sendFile results count n).count = 0 := by
      by_contra hne
      exact hn ⟨hne, hfault⟩
    have htotal := hcount hfault
    rw [hzero, Nat.add_zero] at htotal
    rw [hpassed, htotal]

/-- The file has become empty since its size was read. -/
theorem truncated_file_never_sent :
    ¬ ∀ (results : Results) (count : ℕ), (∀ n sent, results n = .ok sent → sent ≤ count) →
      SendsAll results count := by
  intro h
  have hprogress := (h (fun _ => .ok 0) 1 fun n sent hsent => (by cases hsent; decide)).progress 0
    (by decide)
  exact absurd hprogress (by decide)

end Cs457.Http
