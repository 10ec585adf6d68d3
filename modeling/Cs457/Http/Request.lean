import Cs457.Lib.TextPattern
import Cs457.Lib.UnorderedMap

/-!
# HTTP server — requests

`HttpParser` takes a block of bytes to be one request: its first line is the request line, the
lines up to an empty one are headers, and anything else is left alone. `path` cuts the text
between the first two spaces out of the request line.

* **`HttpParser.path_of_line`** — the path of a line with two spaces.
* **`Request.path_bytes`** — the path of a well-formed request is its target.
-/

namespace Cs457.Http

/-- `std::string`. -/
abbrev Bytes := List UInt8

/-- The bytes of a text of the source. -/
def ascii (text : String) : Bytes := text.toList.map fun c => UInt8.ofNat c.toNat

def newline : UInt8 := 10
def carriageReturn : UInt8 := 13
def space : UInt8 := 32
def colon : UInt8 := 58

/-- `g_CRLF`. -/
def crlf : Bytes := [carriageReturn, newline]

/-- The exceptions that `conn_acceptor` tells apart, with what they say. -/
inductive HttpFault where
  | httpException (what : Bytes)
  | runtimeError (what : Bytes)
  deriving DecidableEq, Repr

/-! ## The parser -/

/-- The lines that `std::getline` reads. The last one may lack its newline. -/
abbrev lines (data : Bytes) : List Bytes := TextPattern.lines newline data

/-- `find(b, start)`. -/
def find (s : Bytes) (b : UInt8) (start : ℕ) : Option ℕ :=
  ((s.drop start).findIdx? fun x => x = b).map (start + ·)

/-- The title and the value of a header line. Without a colon `find` returns `npos`, and
`npos + 1` is zero. -/
def headerOf (line : Bytes) : Bytes × Bytes :=
  match find line colon 0 with
  | some pos => (line.take pos, line.drop (pos + 1))
  | none => (line, line)

structure HttpParser where
  headers : UnorderedMap Bytes Bytes := ∅
  requestLine : Bytes := []

namespace HttpParser

def parseHeaders (data : Bytes) : HttpParser where
  requestLine := (lines data).headD []
  headers := ((lines data).tail.takeWhile fun line => line ≠ [carriageReturn]).foldl
    (fun headers line => headers.emplace (headerOf line).1 (headerOf line).2) ∅

def path (parser : HttpParser) : Except HttpFault Bytes :=
  match find parser.requestLine space 0 with
  | none => .error (.httpException (ascii "Invalid headline encountered"))
  | some start =>
    match find parser.requestLine space (start + 1) with
    | none => .error (.httpException (ascii "Invalid headline encountered"))
    | some stop => .ok ((parser.requestLine.drop (start + 1)).take (stop - start - 1))

end HttpParser

/-! ## Lines and spaces -/

/-- The first occurrence of a byte from a position on. -/
theorem find_append (before : Bytes) {word : Bytes} {b : UInt8} (h : b ∉ word) (rest : Bytes) :
    find (before ++ word ++ b :: rest) b before.length = some (before.length + word.length) := by
  unfold find
  rw [List.append_assoc, List.drop_left, List.findIdx?_append]
  -- the byte is not in the word before it
  have hnone : word.findIdx? (fun x => x = b) = none := by
    rw [List.findIdx?_eq_none_iff]
    intro x hx
    exact decide_eq_false fun heq => h (heq ▸ hx)
  rw [hnone]
  simp [List.findIdx?_cons]

/-- **The path of a line with two spaces.** -/
theorem HttpParser.path_of_line {parser : HttpParser} {method target rest : Bytes}
    (hline : parser.requestLine = method ++ space :: target ++ space :: rest)
    (hmethod : space ∉ method) (htarget : space ∉ target) : parser.path = .ok target := by
  have hfirst : find parser.requestLine space 0 = some method.length := by
    have h := find_append [] hmethod (target ++ space :: rest)
    simpa [hline] using h
  have hsecond : find parser.requestLine space (method.length + 1)
      = some (method.length + 1 + target.length) := by
    have h := find_append (method ++ [space]) htarget rest
    simpa [hline] using h
  have hdrop : parser.requestLine.drop (method.length + 1) = target ++ space :: rest := by
    rw [hline, show method ++ space :: target ++ space :: rest
        = (method ++ [space]) ++ (target ++ space :: rest) from by simp]
    exact List.drop_left' (by simp)
  simp only [path, hfirst, hsecond, hdrop]
  congr 1
  exact List.take_left' (by omega)

/-! ## Well-formed requests -/

/-- A visible character of ASCII. -/
def Visible (b : UInt8) : Prop := 32 < b ∧ b < 127

instance (b : UInt8) : Decidable (Visible b) := inferInstanceAs (Decidable (_ ∧ _))

/-- A byte of a header's value: visible, a blank, or of another character set. -/
def OfText (b : UInt8) : Prop := b = 9 ∨ 32 ≤ b ∧ b ≠ 127

/-- A GET request. -/
structure Request where
  target : Bytes
  version : Bytes
  fields : List (Bytes × Bytes)
  target_visible : ∀ b ∈ target, Visible b
  version_visible : ∀ b ∈ version, Visible b
  names_visible : ∀ f ∈ fields, ∀ b ∈ f.1, Visible b ∧ b ≠ colon
  values_text : ∀ f ∈ fields, ∀ b ∈ f.2, OfText b

/-- A visible byte is no blank and no control byte. -/
theorem Visible.ne {b c : UInt8} (h : Visible b) (hc : c ≤ 32) : b ≠ c := by
  rintro rfl
  exact absurd (UInt8.lt_of_lt_of_le h.1 hc) (UInt8.lt_irrefl _)

namespace Request

/-- The bytes of a request. They end with an empty line. -/
def bytes (r : Request) : Bytes :=
  ascii "GET" ++ space :: r.target ++ space :: r.version ++ crlf ++
    r.fields.flatMap (fun f => f.1 ++ ascii ": " ++ f.2 ++ crlf) ++ crlf

/-- The path of a request is its target. -/
theorem path_bytes (r : Request) : (HttpParser.parseHeaders r.bytes).path = .ok r.target := by
  have htarget : ∀ c, c ≤ 32 → c ∉ r.target := fun c hc hmem =>
    Visible.ne (r.target_visible c hmem) hc rfl
  have hversion : newline ∉ r.version := fun hmem =>
    Visible.ne (r.version_visible _ hmem) (by decide) rfl
  have hline : newline ∉ ascii "GET" ++ space :: r.target ++ space :: r.version
    ++ [carriageReturn] := by
    simp only [List.mem_append, List.mem_cons, List.not_mem_nil, or_false, not_or]
    exact ⟨⟨⟨by decide, by decide, htarget _ (by decide)⟩, by decide, hversion⟩, by decide⟩
  have hmethod : space ∉ ascii "GET" := by decide
  apply HttpParser.path_of_line ?_ hmethod (htarget _ (by decide))
  show (lines r.bytes).headD [] = ascii "GET" ++ space :: r.target ++ space ::
    (r.version ++ [carriageReturn])
  -- the first line ends at the first newline, which is not in the request line
  have hbytes : r.bytes = (ascii "GET" ++ space :: r.target ++ space :: r.version
    ++ [carriageReturn])
      ++ newline :: (r.fields.flatMap (fun f => f.1 ++ ascii ": " ++ f.2 ++ crlf) ++ crlf) := by
    simp [bytes, crlf]
  rw [hbytes, lines, TextPattern.lines_cons hline]
  simp

/-- There is no NUL in a request. -/
theorem zero_notMem_bytes (r : Request) : 0 ∉ r.bytes := by
  have hvisible : ∀ {s : Bytes}, (∀ b ∈ s, Visible b) → 0 ∉ s := fun h hmem =>
    Visible.ne (h 0 hmem) (by decide) rfl
  have hfields : 0 ∉ r.fields.flatMap fun f => f.1 ++ ascii ": " ++ f.2 ++ crlf := by
    intro hmem
    obtain ⟨f, hf, hzero⟩ := List.mem_flatMap.mp hmem
    simp only [List.mem_append] at hzero
    -- a name, the separator, a value, or the end of the line
    rcases hzero with ((hname | hcolon) | hvalue) | hcrlf
    · exact hvisible (fun b hb => (r.names_visible f hf b hb).1) hname
    · exact absurd hcolon (by decide)
    · rcases r.values_text f hf 0 hvalue with h | ⟨h, -⟩
      · exact absurd h (by decide)
      · exact absurd h (by decide)
    · exact absurd hcrlf (by decide)
  unfold bytes
  simp only [List.mem_append, List.mem_cons, not_or]
  exact ⟨⟨⟨⟨⟨by decide, by decide, hvisible r.target_visible⟩, by decide,
    hvisible r.version_visible⟩, by decide⟩, hfields⟩, by decide⟩

end Request

end Cs457.Http
