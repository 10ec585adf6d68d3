import Cs457.Kv.Message
import Cs457.Lib.BigEndian
import Mathlib.Data.Countable.Basic
import Mathlib.Logic.Function.Basic

/-!
# Key-value store — the log

`Log<M>` is an append-only file of records: an 8-byte header with the size of the body, most
significant byte first, and the serialized message. Serialization is protobuf's and stands
here as a `Codec` with the one law the log relies on.

* **`Log.record`** — what `write_update` appends.
* **`Log.replay`** — the messages on which `replay_log` calls its handler. Its buffer is
  allocated once and reused, with what earlier records left in it; it is replaced only when a
  body does not fit. Memory for it is taken to be unbounded.
* **`Log.replay_flatMap`** — replaying complete records.
* **`Log.replay_torn_body`**, **`Log.replay_torn_header`** — replaying a file whose last record
  is cut.
-/

namespace Cs457.Kv

/-- The part of protobuf that the log uses. `parseFromArray buf size` is what a fresh message
holds after `ParseFromArray(buf, size)`, whose result the log ignores; messages of 2 GiB and
more are beyond the library's limit. -/
structure Codec (M : Type) where
  serialize : M → List UInt8
  parseFromArray : List UInt8 → ℕ → M
  parse_serialize : ∀ (m : M) (buf : List UInt8), (serialize m).length < 2 ^ 31 →
    buf.take (serialize m).length = serialize m → parseFromArray buf (serialize m).length = m

variable {M : Type}

/-- The message is within protobuf's limit. -/
def Codec.Fits (codec : Codec M) (m : M) : Prop := (codec.serialize m).length < 2 ^ 31

namespace Log

/-- `Message::encode_header`. -/
def encodeHeader (size : ℕ) : List UInt8 := BigEndian.toBytes 8 size

/-- `Message::decode_header`. -/
def decodeHeader (header : List UInt8) : ℕ := BigEndian.ofBytes header

/-- What `write_update` writes for a message. -/
def record (codec : Codec M) (m : M) : List UInt8 :=
  encodeHeader (codec.serialize m).length ++ codec.serialize m

/-- The file after `write_update` of each message in order. -/
def records (codec : Codec M) (ms : List M) : List UInt8 := ms.flatMap (record codec)

/-- `file.read(temp_buf.get(), ..)`: the bytes read replace the first ones of the buffer. -/
def readInto (buf data : List UInt8) : List UInt8 := data ++ buf.drop data.length

/-- The buffer, reallocated and cleared when a body does not fit. -/
def grow (buf : List UInt8) (size : ℕ) : List UInt8 :=
  if buf.length < size then List.replicate size 0 else buf

/-- The loop of `replay_log` on the bytes that are left, with the buffer. Each turn reads a
header of 8 bytes, so the length of the file bounds the number of turns. -/
def replayLoop (codec : Codec M) : ℕ → List UInt8 → List UInt8 → List M
  | 0, _, _ => []
  | turns + 1, bytes, buf =>
    -- a short read of the header sets the end-of-file bit
    if bytes.length < 8 then []
    else
      let size := decodeHeader (bytes.take 8)
      let rest := bytes.drop 8
      let buf := readInto (grow buf size) (rest.take size)
      -- the handler is called before the stream is looked at again
      codec.parseFromArray buf size ::
        if rest.length < size then [] else replayLoop codec turns (rest.drop size) buf

/-- The messages `replay_log` hands to its handler. -/
def replay (codec : Codec M) (bytes : List UInt8) : List M :=
  replayLoop codec (bytes.length + 1) bytes (List.replicate 32 0)

/-! ## Complete records -/

@[simp] theorem length_encodeHeader (size : ℕ) : (encodeHeader size).length = 8 :=
  BigEndian.length_toBytes 8 size

/-- A record is its header of eight bytes and its message. -/
theorem length_record (codec : Codec M) (m : M) :
    (record codec m).length = 8 + (codec.serialize m).length := by
  rw [record, List.length_append, length_encodeHeader]

/-- A size below `2 ^ 64` is read back. -/
theorem decodeHeader_encodeHeader {size : ℕ} (h : size < 2 ^ 64) :
    decodeHeader (encodeHeader size) = size :=
  BigEndian.ofBytes_toBytes_of_lt (by omega)

/-- So is the size of a message that fits. -/
theorem decodeHeader_of_fits {codec : Codec M} {m : M} (hm : codec.Fits m) :
    decodeHeader (encodeHeader (codec.serialize m).length) = (codec.serialize m).length := by
  have hfits : (codec.serialize m).length < 2 ^ 31 := hm
  exact decodeHeader_encodeHeader (by omega)

theorem records_cons (codec : Codec M) (m : M) (ms : List M) :
    records codec (m :: ms) = record codec m ++ records codec ms := List.flatMap_cons

theorem records_append (codec : Codec M) (ms ms' : List M) :
    records codec (ms ++ ms') = records codec ms ++ records codec ms' := List.flatMap_append

/-- Whatever the buffer held, a body that is read in full is parsed from its first bytes. -/
theorem take_readInto (buf data : List UInt8) : (readInto buf data).take data.length = data :=
  List.take_left

/-- The loop with a whole record at the front. -/
theorem replayLoop_record {codec : Codec M} {m : M} (hm : codec.Fits m) (turns : ℕ)
    (bytes buf : List UInt8) :
    replayLoop codec (turns + 1) (record codec m ++ bytes) buf
      = m :: replayLoop codec turns bytes
          (readInto (grow buf (codec.serialize m).length) (codec.serialize m)) := by
  -- the header is there, and it gives the size of the body
  have hlen : ¬ (record codec m ++ bytes).length < 8 := by
    rw [List.length_append, length_record]
    omega
  have hhead : (record codec m ++ bytes).take 8 = encodeHeader (codec.serialize m).length := by
    rw [record, List.append_assoc,
      List.take_append_of_le_length (length_encodeHeader _).ge]
    exact List.take_of_length_le (length_encodeHeader _).le
  have hrest : (record codec m ++ bytes).drop 8 = codec.serialize m ++ bytes := by
    rw [record, List.append_assoc]
    exact List.drop_left' (length_encodeHeader _)
  have hbody : ¬ (codec.serialize m ++ bytes).length < (codec.serialize m).length := by
    rw [List.length_append]
    omega
  rw [replayLoop, if_neg hlen]
  simp only [hhead, hrest, decodeHeader_of_fits hm, List.take_left,
    List.drop_left, if_neg hbody]
  rw [codec.parse_serialize m _ hm (take_readInto _ _)]

/-- Complete records are replayed whatever follows them. Induction on the records, for every
content of the buffer. -/
theorem replayLoop_records {codec : Codec M} {ms : List M} (hms : ∀ m ∈ ms, codec.Fits m)
    (turns : ℕ) (bytes buf : List UInt8) : ∃ buf', replayLoop codec (ms.length + turns)
        (records codec ms ++ bytes) buf = ms ++ replayLoop codec turns bytes buf' := by
  induction ms generalizing buf with
  | nil => exact ⟨buf, by rw [List.length_nil, Nat.zero_add]; rfl⟩
  | cons m ms ih =>
    obtain ⟨buf', hbuf'⟩ := ih (fun x hx => hms x (List.mem_cons_of_mem m hx))
      (readInto (grow buf (codec.serialize m).length) (codec.serialize m))
    refine ⟨buf', ?_⟩
    rw [List.length_cons, records_cons, List.append_assoc,
      show ms.length + 1 + turns = ms.length + turns + 1 from by omega,
      replayLoop_record (hms m List.mem_cons_self), hbuf', List.cons_append]

/-- A log has at least the headers of its records. -/
theorem length_records_le (codec : Codec M) (ms : List M) :
    8 * ms.length ≤ (records codec ms).length := by
  induction ms with
  | nil => simp
  | cons m ms ih =>
    rw [records_cons, List.length_append, length_record, List.length_cons]
    omega

/-- More turns than bytes left do not matter. -/
theorem replayLoop_turns (codec : Codec M) {turns : ℕ} {bytes : List UInt8}
    (h : bytes.length < turns) (buf : List UInt8) (turns' : ℕ) (h' : bytes.length < turns') :
    replayLoop codec turns bytes buf = replayLoop codec turns' bytes buf := by
  -- each turn takes at least the header off the bytes that are left
  induction turns generalizing bytes buf turns' with
  | zero => omega
  | succ turns ih =>
    obtain ⟨n, rfl⟩ : ∃ n, turns' = n + 1 := ⟨turns' - 1, by omega⟩
    rw [replayLoop, replayLoop]
    split
    · rfl
    · next hlen =>
      simp only
      split
      · rfl
      · have hdrop : ((bytes.drop 8).drop (decodeHeader (bytes.take 8))).length < turns := by
          rw [List.length_drop, List.length_drop]
          omega
        rw [ih hdrop _ n (by rw [List.length_drop, List.length_drop] at hdrop ⊢; omega)]

/-- **Complete records before anything.** The replay of a file that begins with complete
records calls the handler on them first and then goes on with what follows. -/
theorem replay_records_append {codec : Codec M} {ms : List M} (hms : ∀ m ∈ ms, codec.Fits m)
    (bytes : List UInt8) : ∃ buf, replay codec (records codec ms ++ bytes)
      = ms ++ replayLoop codec (bytes.length + 1) bytes buf := by
  have hlen := length_records_le codec ms
  -- the turns that are left when the records have been read
  set spare := (records codec ms).length - ms.length + bytes.length + 1 with hspare
  obtain ⟨buf, hbuf⟩ := replayLoop_records hms spare bytes (List.replicate 32 0)
  refine ⟨buf, ?_⟩
  rw [replay, List.length_append,
    show (records codec ms).length + bytes.length + 1 = ms.length + spare from by omega, hbuf,
    replayLoop_turns codec (by omega) buf (bytes.length + 1) (by omega)]

/-- **The round trip.** Replaying what `write_update` wrote calls the handler on exactly the
messages written, in order. -/
theorem replay_records {codec : Codec M} {ms : List M} (hms : ∀ m ∈ ms, codec.Fits m) :
    replay codec (records codec ms) = ms := by
  obtain ⟨buf, hbuf⟩ := replay_records_append hms []
  rw [List.append_nil] at hbuf
  rw [hbuf]
  exact List.append_nil ms

/-! ## Torn records -/

/-- A turn of the loop that gets a whole header calls the handler. -/
theorem replayLoop_cons (codec : Codec M) (turns : ℕ) {bytes : List UInt8}
    (hlen : 8 ≤ bytes.length) (buf : List UInt8) :
    ∃ x buf', replayLoop codec (turns + 1) bytes buf
      = x :: if (bytes.drop 8).length < decodeHeader (bytes.take 8) then []
        else replayLoop codec turns ((bytes.drop 8).drop (decodeHeader (bytes.take 8))) buf' := by
  rw [replayLoop, if_neg (by omega)]
  exact ⟨_, _, rfl⟩

/-- The file is too short for the size in the header: the handler is called once more, on
whatever the buffer holds. -/
theorem replayLoop_short (codec : Codec M) (turns : ℕ) {bytes : List UInt8}
    (hlen : 8 ≤ bytes.length) (hshort : (bytes.drop 8).length < decodeHeader (bytes.take 8))
    (buf : List UInt8) : ∃ x, replayLoop codec (turns + 1) bytes buf = [x] := by
  obtain ⟨x, _, hx⟩ := replayLoop_cons codec turns hlen buf
  exact ⟨x, by rw [hx, if_pos hshort]⟩

/-- The file that is left when the last of the writes stops after `cut` bytes. -/
def torn (codec : Codec M) (ms : List M) (m : M) (cut : ℕ) : List UInt8 :=
  (records codec (ms ++ [m])).take ((records codec ms).length + cut)

/-- A torn log is the records before and a part of the last one. -/
theorem torn_eq (codec : Codec M) (ms : List M) (m : M) (cut : ℕ) :
    torn codec ms m cut = records codec ms ++ (record codec m).take cut := by
  have hlast : records codec [m] = record codec m := by
    rw [records, List.flatMap_singleton]
  rw [torn, records_append, hlast, List.take_length_add_append]

/-- A cut right after the header of the last record or inside its body. -/
theorem replay_torn_body {codec : Codec M} {ms : List M} (hms : ∀ m ∈ ms, codec.Fits m) {m : M}
    (hm : codec.Fits m) {cut : ℕ} (hcut : 8 ≤ cut) (hlt : cut < (record codec m).length) :
    ∃ x, replay codec (torn codec ms m cut) = ms ++ [x] := by
  rw [length_record] at hlt
  obtain ⟨buf, hbuf⟩ := replay_records_append hms ((record codec m).take cut)
  have hlen : ((record codec m).take cut).length = cut := by
    rw [List.length_take, length_record]
    omega
  -- the header is whole, so the size that is read is that of the body
  have hhead : ((record codec m).take cut).take 8 = encodeHeader (codec.serialize m).length := by
    rw [List.take_take, Nat.min_eq_left hcut, record,
      List.take_append_of_le_length (length_encodeHeader _).ge]
    exact List.take_of_length_le (length_encodeHeader _).le
  have hshort : (((record codec m).take cut).drop 8).length
      < decodeHeader (((record codec m).take cut).take 8) := by
    rw [hhead, decodeHeader_of_fits hm, List.length_drop, hlen]
    omega
  obtain ⟨x, hx⟩ := replayLoop_short codec _ (by omega) hshort buf
  exact ⟨x, by rw [torn_eq, hbuf, hx]⟩

/-- A cut inside the header of the last record goes unnoticed. -/
theorem replay_torn_header {codec : Codec M} {ms : List M} (hms : ∀ m ∈ ms, codec.Fits m) (m : M)
    {cut : ℕ} (hcut : cut < 8) : replay codec (torn codec ms m cut) = ms := by
  obtain ⟨buf, hbuf⟩ := replay_records_append hms ((record codec m).take cut)
  have hlen : ((record codec m).take cut).length < 8 := by
    rw [List.length_take]
    omega
  rw [torn_eq, hbuf, replayLoop, if_pos hlen, List.append_nil]

/-- After a cut inside a header the reader is out of step: what it takes for the next header
is the torn one completed by the first bytes of the next, which are zero for a short body. -/
theorem decodeHeader_misread (codec : Codec M) (m : M) {a : M} {cut : ℕ} (hcut : cut < 8)
    (hpos : 0 < cut) (ha : (codec.serialize a).length < 256) (bytes : List UInt8) :
    decodeHeader (((record codec m).take cut ++ (record codec a ++ bytes)).take 8)
      = BigEndian.ofBytes ((record codec m).take cut) * 256 ^ (8 - cut) := by
  have hlen : ((record codec m).take cut).length = cut := by
    rw [List.length_take, length_record]
    omega
  -- the size of a short body fits in its last byte, the bytes before it are zero
  have hnext : (record codec a ++ bytes).take (8 - cut) = BigEndian.toBytes (8 - cut) 0 := by
    rw [record, List.append_assoc,
      List.take_append_of_le_length (by rw [length_encodeHeader]; omega), encodeHeader,
      show (8 : ℕ) = 8 - cut + cut from by omega, Nat.add_sub_cancel_right, BigEndian.take_toBytes]
    congr 1
    refine Nat.div_eq_of_lt (ha.trans_le ?_)
    calc 256 = 256 ^ 1 := by norm_num
      _ ≤ 256 ^ cut := Nat.pow_le_pow_right (by omega) hpos
  rw [List.take_append, List.take_of_length_le (by omega), hlen, hnext, decodeHeader,
    BigEndian.ofBytes_append, BigEndian.length_toBytes, BigEndian.ofBytes_toBytes, Nat.zero_mod,
    Nat.add_zero]

/-- **Appending to a torn header loses records.** Either the misread size is zero and one
record is read as two or more, or it exceeds two short records and both are read as one. -/
theorem replay_misframed {codec : Codec M} {ms : List M} (hms : ∀ m ∈ ms, codec.Fits m) (m : M)
    {a : M} (hmin : 7 ≤ (codec.serialize a).length) (hmax : (codec.serialize a).length ≤ 100)
    {cut : ℕ} (hpos : 0 < cut) (hcut : cut < 8) :
    ∃ appended, (∀ x ∈ appended, codec.Fits x) ∧
      replay codec (torn codec ms m cut ++ records codec appended) ≠ ms ++ appended := by
  have hfits : codec.Fits a := by
    show (codec.serialize a).length < 2 ^ 31
    omega
  have hshort : (codec.serialize a).length < 256 := by omega
  set head := (record codec m).take cut with hhead
  have hlen : head.length = cut := by
    rw [hhead, List.length_take, length_record]
    omega
  by_cases hzero : BigEndian.ofBytes head = 0
  · -- the first turn takes an empty body, the second the rest of the record
    refine ⟨[a], by simpa using hfits, fun heq => ?_⟩
    have hsize := decodeHeader_misread codec m hcut hpos hshort (records codec [])
    rw [← records_cons, ← hhead, hzero, Nat.zero_mul] at hsize
    have hbytes : (head ++ records codec [a]).length = cut + 8 + (codec.serialize a).length := by
      rw [List.length_append, records_cons, List.length_append, length_record, hlen]
      simp [records]
      omega
    obtain ⟨buf, hbuf⟩ := replay_records_append hms (head ++ records codec [a])
    rw [torn_eq, List.append_assoc, hbuf] at heq
    rw [show (head ++ records codec [a]).length + 1
      = cut + 7 + (codec.serialize a).length + 1 + 1 from by omega] at heq
    obtain ⟨x, buf', hx⟩ := replayLoop_cons codec (cut + 7 + (codec.serialize a).length + 1)
      (show 8 ≤ (head ++ records codec [a]).length by omega) buf
    rw [hx, hsize, if_neg (by omega), List.drop_zero] at heq
    obtain ⟨y, _, hy⟩ := replayLoop_cons codec (cut + 7 + (codec.serialize a).length)
      (show 8 ≤ ((head ++ records codec [a]).drop 8).length by rw [List.length_drop]; omega) buf'
    rw [hy] at heq
    have hcount := congrArg List.length heq
    simp only [List.length_append, List.length_cons, List.length_nil] at hcount
    omega
  · -- the body would be longer than the two records
    refine ⟨[a, a], by simpa using hfits, fun heq => ?_⟩
    have hsize := decodeHeader_misread codec m hcut hpos hshort (records codec [a])
    rw [← records_cons, ← hhead] at hsize
    have hbig : 256 ≤ decodeHeader ((head ++ records codec [a, a]).take 8) := by
      rw [hsize]
      calc 256 = 1 * 256 ^ 1 := by norm_num
        _ ≤ BigEndian.ofBytes head * 256 ^ (8 - cut) :=
          Nat.mul_le_mul (by omega) (Nat.pow_le_pow_right (by omega) (by omega))
    have hbytes : (head ++ records codec [a, a]).length
        = cut + 16 + 2 * (codec.serialize a).length := by
      rw [List.length_append, records_cons, records_cons, List.length_append, List.length_append,
        length_record, hlen]
      simp [records]
      omega
    obtain ⟨buf, hbuf⟩ := replay_records_append hms (head ++ records codec [a, a])
    rw [torn_eq, List.append_assoc, hbuf] at heq
    obtain ⟨x, hx⟩ := replayLoop_short codec (head ++ records codec [a, a]).length
      (show 8 ≤ (head ++ records codec [a, a]).length by omega)
      (by rw [List.length_drop]; omega) buf
    rw [hx] at heq
    have hcount := congrArg List.length heq
    simp only [List.length_append, List.length_cons, List.length_nil] at hcount
    omega

/-- What a log would do that never replays a torn record: the replay of the torn file stops
before it, and that of the file to which a later process has appended goes on after it. -/
def TornSafe (codec : Codec M) (ms : List M) (m : M) (cut : ℕ) : Prop :=
  replay codec (torn codec ms m cut) = ms ∧
    ∀ appended, (∀ x ∈ appended, codec.Fits x) →
      replay codec (torn codec ms m cut ++ records codec appended) = ms ++ appended

/-- **A torn record is always replayed or misread.** Wherever the cut falls inside the last
record, the log fails one of its two duties: the replay of the torn file is right exactly for
cuts inside the header, and for these some later records are lost. -/
theorem torn_never_safe {codec : Codec M} {ms : List M} (hms : ∀ m ∈ ms, codec.Fits m) {m : M}
    (hm : codec.Fits m) {cut : ℕ} (hpos : 0 < cut) (hlt : cut < (record codec m).length)
    (hshort : ∃ a, 7 ≤ (codec.serialize a).length ∧ (codec.serialize a).length ≤ 100) :
    (replay codec (torn codec ms m cut) = ms ↔ cut < 8) ∧ ¬ TornSafe codec ms m cut := by
  by_cases hcut : cut < 8
  · refine ⟨iff_of_true (replay_torn_header hms m hcut) hcut, fun hsafe => ?_⟩
    obtain ⟨a, hmin, hmax⟩ := hshort
    obtain ⟨appended, hfits, hne⟩ := replay_misframed hms m hmin hmax hpos hcut
    exact hne (hsafe.2 appended hfits)
  · obtain ⟨x, hx⟩ := replay_torn_body hms hm (by omega) hlt
    have hne : replay codec (torn codec ms m cut) ≠ ms := by
      rw [hx]
      simp
    exact ⟨iff_of_false hne hcut, fun hsafe => hne hsafe.1⟩

end Log

/-! ## A codec for one message

Protobuf's bytes for a chosen message, and for the others some bytes that cannot be mistaken
for them. -/

section Sample

variable [Countable M] [DecidableEq M]

/-- The bytes of `m₀` are given; any other message is a run of `0xff` of its own length. -/
noncomputable def sampleBytes (m₀ : M) (bytes : List UInt8) (m : M) : List UInt8 :=
  if m = m₀ then bytes else List.replicate ((exists_injective_nat M).choose m + 1) 255

/-- The bytes of the sample tell the messages apart. -/
theorem sampleBytes_injective (m₀ : M) {bytes : List UInt8} (h : 255 ∉ bytes) :
    Function.Injective (sampleBytes m₀ bytes) := by
  -- a run of `0xff` is not the given bytes
  have hother : ∀ n, bytes ≠ List.replicate (n + 1) 255 := fun n heq =>
    h (heq ▸ List.mem_replicate.mpr ⟨by omega, rfl⟩)
  intro a b hab
  unfold sampleBytes at hab
  split at hab <;> split at hab
  · next ha hb => rw [ha, hb]
  · exact absurd hab (hother _)
  · exact absurd hab.symm (hother _)
  · have hlen := congrArg List.length hab
    rw [List.length_replicate, List.length_replicate] at hlen
    exact (exists_injective_nat M).choose_spec (Nat.succ.inj hlen)

noncomputable def Codec.sample (m₀ : M) (bytes : List UInt8) (h : 255 ∉ bytes) : Codec M where
  serialize := sampleBytes m₀ bytes
  parseFromArray buf size :=
    haveI : Nonempty M := ⟨m₀⟩
    Function.invFun (sampleBytes m₀ bytes) (buf.take size)
  parse_serialize m buf _ hbuf := by
    have : Nonempty M := ⟨m₀⟩
    rw [hbuf]
    exact Function.leftInverse_invFun (sampleBytes_injective m₀ h) m

@[simp] theorem Codec.sample_serialize (m₀ : M) (bytes : List UInt8) (h : 255 ∉ bytes) :
    (Codec.sample m₀ bytes h).serialize m₀ = bytes := if_pos rfl

end Sample

instance : Countable HintMessage :=
  Function.Injective.countable (f := fun m : HintMessage => match m with
    | .addHint r k => (0, r.toNat, k.toNat)
    | .dropHint r k => (1, r.toNat, k.toNat)
    | .notSet => (2, 0, 0)) fun a b h => by
      cases a <;> cases b <;> simp_all [UInt32.toNat_inj]

/-- A hint for the key 200 of the replica 1, as protobuf writes it. -/
noncomputable def hintCodec : Codec HintMessage :=
  .sample (.addHint 1 200) [0x0a, 0x05, 0x08, 0x01, 0x10, 0xc8, 0x01] (by decide)

theorem hintCodec_length : (hintCodec.serialize (.addHint 1 200)).length = 7 :=
  congrArg List.length (Codec.sample_serialize ..)

theorem hintCodec_fits : hintCodec.Fits (.addHint 1 200) := by
  rw [Codec.Fits, hintCodec_length]
  decide

namespace Log

theorem length_record_hint : (record hintCodec (.addHint 1 200)).length = 15 := by
  rw [length_record, hintCodec_length]

/-- A hint record of fifteen bytes that is cut within its header, and within its message. -/
theorem torn_never_safe_hint :
    ¬ TornSafe hintCodec [.addHint 1 200] (.addHint 1 200) 3 ∧
    ¬ TornSafe hintCodec [.addHint 1 200] (.addHint 1 200) 11 := by
  have hall : ∀ m ∈ [HintMessage.addHint 1 200], hintCodec.Fits m := by
    simpa using hintCodec_fits
  have hlen := length_record_hint
  have hshort : ∃ a, 7 ≤ (hintCodec.serialize a).length ∧ (hintCodec.serialize a).length ≤ 100 :=
    ⟨.addHint 1 200, hintCodec_length.ge, by rw [hintCodec_length]; decide⟩
  exact ⟨(torn_never_safe hall hintCodec_fits (by decide) (by omega) hshort).2,
    (torn_never_safe hall hintCodec_fits (by decide) (by omega) hshort).2⟩

/-- A first write that stops three bytes into the body is replayed. -/
theorem torn_hint_replayed :
    (∃ x, replay hintCodec (torn hintCodec [] (.addHint 1 200) 11) = [x]) ∧
      ¬ TornSafe hintCodec [] (.addHint 1 200) 11 := by
  have hlen := length_record_hint
  obtain ⟨x, hx⟩ := replay_torn_body
    (show ∀ m ∈ ([] : List HintMessage), hintCodec.Fits m by simp) hintCodec_fits (by decide)
    (show 11 < (record hintCodec (.addHint 1 200)).length by omega)
  rw [List.nil_append] at hx
  refine ⟨⟨x, hx⟩, fun hsafe => ?_⟩
  have hnil := hsafe.1
  rw [hx] at hnil
  cases hnil

end Log

end Cs457.Kv
