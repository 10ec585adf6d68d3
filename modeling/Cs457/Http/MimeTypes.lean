import Cs457.Http.Server

/-!
# HTTP server — the MIME types

`MimeDb` reads a `mime.types` file line by line and cuts each line at its blanks. All pieces of a
line become keys, the first one included, and where a line begins with a blank or has nothing in
it that piece is empty.

* **`mimeOfExt_create`** — a lookup finds the first line that has the extension among its pieces.
* **`mimeOfExt_iff`** — when that is the line which lists the extension.
-/

namespace Cs457.Http

/-- `\s`. -/
def isBlank (b : UInt8) : Bool := [9, 10, 11, 12, 13, 32].contains b

def hash : UInt8 := 35

/-- What lies between the blanks. -/
def splitBlanks : Bytes → List Bytes
  | [] => [[]]
  | b :: rest =>
    if isBlank b then [] :: splitBlanks rest
    else match splitBlanks rest with
      | [] => [[b]]
      | piece :: others => (b :: piece) :: others

/-- What the token iterator runs through: the text before the first blanks, even if it is empty,
what lies between blanks, and what comes behind the last ones, unless it is empty. -/
def tokens (line : Bytes) : List Bytes :=
  match splitBlanks line with
  | [] => []
  | piece :: others => piece :: others.filter fun piece => piece ≠ []

/-- `regex_match(line, comment)`. The dot of the expression matches no end of a line. -/
def isComment (line : Bytes) : Bool :=
  match line.dropWhile isBlank with
  | [] => false
  | b :: rest => b == hash && !rest.contains newline && !rest.contains carriageReturn

/-- The body of the loop of the constructor. -/
def MimeDb.addLine (extToType : UnorderedMap Bytes Bytes) (line : Bytes) :
    UnorderedMap Bytes Bytes :=
  if isComment line then extToType
  else match tokens line with
    | [] => extToType
    | mimeType :: others =>
      (mimeType :: others).foldl (fun extToType token => extToType.emplace token mimeType) extToType

/-- The constructor, on the text of the file. -/
def MimeDb.create (text defaultType : Bytes) : MimeDb where
  extToType := (lines text).foldl addLine ∅
  default := defaultType

/-! ## What a file says -/

/-- The words of a line. -/
def words (line : Bytes) : List Bytes := (splitBlanks line).filter fun piece => piece ≠ []

/-- The first character that is not a blank is "#". -/
def IsCommentLine (line : Bytes) : Prop := (line.dropWhile isBlank).head? = some hash

instance (line : Bytes) : Decidable (IsCommentLine line) :=
  inferInstanceAs (Decidable (_ = _))

/-- The first line that lists the extension after its type. -/
def listing (text ext : Bytes) : Option Bytes :=
  (lines text).find? fun line => ¬ IsCommentLine line ∧ ext ∈ (words line).tail

/-- **What a file says of an extension.** -/
def specified (text defaultType ext : Bytes) : Bytes :=
  match listing text ext with
  | some line => (words line).headD []
  | none => defaultType

/-- The constructor does not skip the line and has the extension among its pieces. -/
def Keyed (ext line : Bytes) : Prop := isComment line = false ∧ ext ∈ tokens line

instance (ext line : Bytes) : Decidable (Keyed ext line) := inferInstanceAs (Decidable (_ ∧ _))

/-- The first line with the extension as a key. -/
def firstWith (text ext : Bytes) : Option Bytes := (lines text).find? fun line => Keyed ext line

/-! ## Lookups -/

/-- A line gives its type to those of its keys that have none yet. -/
theorem lookup_addLine (extToType : UnorderedMap Bytes Bytes) (line ext : Bytes) :
    (MimeDb.addLine extToType line).lookup ext = (extToType.lookup ext).or
      (if Keyed ext line then (tokens line).head? else none) := by
  unfold MimeDb.addLine
  split
  · next hcomment => simp [Keyed, hcomment]
  · next hcomment =>
    rw [Bool.not_eq_true] at hcomment
    split
    · next htokens => simp [Keyed, htokens]
    · next mimeType others htokens =>
      rw [UnorderedMap.lookup_foldl_emplace]
      simp [Keyed, hcomment, htokens]

/-- Lines are read in order, and the first that has a key decides. -/
theorem lookup_foldl_addLine (ls : List Bytes) (extToType : UnorderedMap Bytes Bytes)
    (ext : Bytes) :
    (ls.foldl MimeDb.addLine extToType).lookup ext = (extToType.lookup ext).or
      ((ls.find? fun line => Keyed ext line).bind fun line => (tokens line).head?) := by
  -- `emplace` never overwrites, so the map of the lines before comes first
  induction ls generalizing extToType with
  | nil => simp
  | cons line ls ih =>
    rw [List.foldl_cons, ih, lookup_addLine, Option.or_assoc, List.find?_cons]
    congr 1
    by_cases hline : Keyed ext line
    · obtain ⟨token, htoken⟩ := Option.isSome_iff_exists.mp
        (List.isSome_head?.mpr (List.ne_nil_of_mem hline.2))
      simp [hline, htoken]
    · simp [hline]

/-- **A lookup.** -/
theorem mimeOfExt_create (text defaultType ext : Bytes) :
    (MimeDb.create text defaultType).mimeOfExt ext =
      ((firstWith text ext).bind fun line => (tokens line).head?).getD defaultType := by
  show (((lines text).foldl MimeDb.addLine ∅).lookup ext).getD defaultType = _
  rw [lookup_foldl_addLine]
  simp [firstWith]

/-! ## Pieces and words -/

/-- Of a line that starts with no blank the tokens are the words. -/
theorem tokens_of_nonblank {b : UInt8} (hb : isBlank b = false) (rest : Bytes) :
    tokens (b :: rest) = words (b :: rest) ∧ ∃ piece others, words (b :: rest)
      = (b :: piece) :: others := by
  have hne : ¬ isBlank b = true := by
    rw [hb]
    decide
  unfold tokens words
  rw [splitBlanks, if_neg hne]
  -- the first character is joined to the first piece of the rest
  cases splitBlanks rest with
  | nil => exact ⟨rfl, _, _, rfl⟩
  | cons piece others =>
    exact ⟨by simp, _, _, List.filter_cons_of_pos (by simp)⟩

/-- A line that does not begin with a word has an empty piece ahead of its words. -/
theorem tokens_of_blank {line : Bytes} (h : ∀ b rest, line = b :: rest → isBlank b = true) :
    tokens line = [] :: words line := by
  cases line with
  | nil => rfl
  | cons b rest =>
    unfold tokens words
    rw [splitBlanks, if_pos (h b rest rfl)]
    simp

/-- No word is empty. -/
theorem mem_words_ne_nil {line word : Bytes} (h : word ∈ words line) : word ≠ [] := by
  have hfilter := (List.mem_filter.mp h).2
  simpa using hfilter

/-- Every word is a token. -/
theorem mem_tokens_of_mem_words {line word : Bytes} (h : word ∈ words line) :
    word ∈ tokens line := by
  unfold words at h
  unfold tokens
  obtain ⟨hmem, hne⟩ := List.mem_filter.mp h
  cases hpieces : splitBlanks line with
  | nil =>
    rw [hpieces] at hmem
    cases hmem
  | cons piece others =>
    rw [hpieces] at hmem
    rcases List.mem_cons.mp hmem with rfl | hmem
    · exact List.mem_cons_self
    · exact List.mem_cons_of_mem _ (List.mem_filter.mpr ⟨hmem, hne⟩)

/-- The first word begins behind the leading blanks. -/
theorem head_words (line : Bytes) :
    (words line).head?.bind List.head? = (line.dropWhile isBlank).head? := by
  induction line with
  | nil => rfl
  | cons b rest ih =>
    cases hb : isBlank b with
    | true =>
      -- an empty piece, which is no word
      have hwords : words (b :: rest) = words rest := by
        unfold words
        rw [splitBlanks, if_pos hb]
        exact List.filter_cons_of_neg (by simp)
      rw [hwords, ih, List.dropWhile_cons_of_pos hb]
    | false =>
      obtain ⟨-, piece, others, hwords⟩ := tokens_of_nonblank hb rest
      have hdrop : ¬ isBlank b = true := by
        rw [hb]
        decide
      rw [hwords, List.dropWhile_cons_of_neg hdrop]
      rfl

/-- A line that the code skips is a comment. -/
theorem isCommentLine_of_isComment {line : Bytes} (h : isComment line = true) :
    IsCommentLine line := by
  unfold isComment at h
  unfold IsCommentLine
  split at h
  · cases h
  · next b rest hdrop =>
    simp only [Bool.and_eq_true, beq_iff_eq] at h
    rw [hdrop, h.1.1]
    rfl

/-- A comment line is told by its first word. -/
theorem isCommentLine_iff (line : Bytes) :
    IsCommentLine line ↔ (words line).head?.bind List.head? = some hash := by
  rw [head_words]
  exact Iff.rfl

/-! ## When a lookup is right -/

/-- The line with the extension begins with its type, is no comment, and lists the extension
after its type; or the extension is its type, and also the type of the first line that lists it. -/
def FoundRight (text ext line : Bytes) : Prop :=
  (∃ b rest, line = b :: rest ∧ isBlank b = false) ∧ ¬ IsCommentLine line ∧
    (ext ∈ (words line).tail ∨
      ∃ line', listing text ext = some line' ∧ (words line').head? = some ext)

/-- The first element of a kind is the first of a narrower kind, if it is of that. -/
theorem find?_of_imp {α : Type} {p q : α → Bool} {l : List α} {x : α}
    (hpq : ∀ a, p a = true → q a = true) (hx : l.find? q = some x) (hp : p x = true) :
    l.find? p = some x := by
  obtain ⟨-, before, after, rfl, hbefore⟩ := List.find?_eq_some_iff_append.mp hx
  refine List.find?_eq_some_iff_append.mpr ⟨hp, before, after, rfl, fun a ha => ?_⟩
  have hqa := hbefore a ha
  cases hpa : p a with
  | false => rfl
  | true =>
    rw [hpq a hpa] at hqa
    cases hqa

/-- The constructor does not skip a line that lists an extension. -/
theorem keyed_of_lists {ext line : Bytes} (hcomment : ¬ IsCommentLine line)
    (hext : ext ∈ (words line).tail) : Keyed ext line := by
  refine ⟨?_, mem_tokens_of_mem_words (List.mem_of_mem_tail hext)⟩
  cases hline : isComment line with
  | false => rfl
  | true => exact absurd (isCommentLine_of_isComment hline) hcomment

/-- The first line that has the extension lists it, if it is no comment and does not have it as its
type. -/
theorem listing_of_firstWith {text ext line : Bytes} (h : firstWith text ext = some line)
    (hcomment : ¬ IsCommentLine line) (hext : ext ∈ (words line).tail) :
    listing text ext = some line := by
  refine find?_of_imp (fun a ha => ?_) h (decide_eq_true ⟨hcomment, hext⟩)
  obtain ⟨hcomment, hext⟩ := of_decide_eq_true ha
  exact decide_eq_true (keyed_of_lists hcomment hext)

/-- An extension that is on no line is not listed. -/
theorem listing_eq_none {text ext : Bytes} (h : firstWith text ext = none) :
    listing text ext = none := by
  refine List.find?_eq_none.mpr fun line hline hlists => ?_
  obtain ⟨hcomment, hext⟩ := of_decide_eq_true hlists
  exact List.find?_eq_none.mp h line hline (decide_eq_true (keyed_of_lists hcomment hext))

/-- The line that lists an extension has a type, which is no comment. -/
theorem listing_spec {text ext line : Bytes} (h : listing text ext = some line) :
    ∃ mimeType, (words line).head? = some mimeType ∧ mimeType ≠ [] ∧
      mimeType.head? ≠ some hash := by
  unfold listing at h
  have hfound := List.find?_some h
  obtain ⟨hcomment, hext⟩ := of_decide_eq_true hfound
  obtain ⟨mimeType, hmimeType⟩ := Option.isSome_iff_exists.mp
    (List.isSome_head?.mpr (List.ne_nil_of_mem (List.mem_of_mem_tail hext)))
  refine ⟨mimeType, hmimeType, mem_words_ne_nil (List.mem_of_mem_head? hmimeType), fun hhash => ?_⟩
  exact hcomment ((isCommentLine_iff line).mpr (by rw [hmimeType]; exact hhash))

/-- A line of `firstWith` has a first piece. -/
theorem firstWith_spec {text ext line : Bytes} (h : firstWith text ext = some line) :
    ext ∈ tokens line ∧ ∃ token, (tokens line).head? = some token := by
  unfold firstWith at h
  have hfound := List.find?_some h
  obtain ⟨-, hext⟩ := of_decide_eq_true hfound
  exact ⟨hext, Option.isSome_iff_exists.mp (List.isSome_head?.mpr (List.ne_nil_of_mem hext))⟩

/-- **MIME lookups.** An extension gets the type that the file gives it, whatever the default type
is, exactly when no line has it among its pieces or the first that has it is found right. -/
theorem mimeOfExt_iff (text ext : Bytes) :
    (∀ defaultType, (MimeDb.create text defaultType).mimeOfExt ext
      = specified text defaultType ext) ↔
      ∀ line, firstWith text ext = some line → FoundRight text ext line := by
  simp only [mimeOfExt_create, specified]
  constructor
  · intro h line hline
    obtain ⟨hext, token, htoken⟩ := firstWith_spec hline
    simp only [hline, Option.bind_some, htoken, Option.getD_some] at h
    -- another default type would not be found
    obtain ⟨line', hline'⟩ : ∃ line', listing text ext = some line' := by
      cases hlisting : listing text ext with
      | some line' => exact ⟨line', rfl⟩
      | none =>
        have heq := h (0 :: token)
        simp only [hlisting] at heq
        exact absurd (congrArg List.length heq) (by simp)
    obtain ⟨mimeType, hhead, hne, hhash⟩ := listing_spec hline'
    have htype : token = mimeType := by
      have heq := h []
      simp only [hline'] at heq
      rw [heq, List.headD_eq_head?_getD, hhead]
      rfl
    subst htype
    -- the type that was found is a word, so the first piece was not empty
    have hstart : ∃ b rest, line = b :: rest ∧ isBlank b = false := by
      by_contra hnone
      have hblank : ∀ b rest, line = b :: rest → isBlank b = true := by
        intro b rest heq
        cases hb : isBlank b with
        | true => rfl
        | false => exact absurd ⟨b, rest, heq, hb⟩ hnone
      rw [tokens_of_blank hblank] at htoken
      exact hne (Option.some.inj htoken).symm
    obtain ⟨b, rest, rfl, hb⟩ := hstart
    have hwords := (tokens_of_nonblank hb rest).1
    rw [hwords] at htoken hext
    refine ⟨⟨b, rest, rfl, hb⟩, fun hcomment => ?_, ?_⟩
    · have hfirst := (isCommentLine_iff _).mp hcomment
      rw [htoken] at hfirst
      exact hhash hfirst
    · obtain ⟨others, hcons⟩ := List.head?_eq_some_iff.mp htoken
      rw [hcons] at hext ⊢
      rcases List.mem_cons.mp hext with rfl | hext
      · exact Or.inr ⟨line', hline', hhead⟩
      · exact Or.inl hext
  · intro h defaultType
    cases hline : firstWith text ext with
    | none => simp only [listing_eq_none hline, Option.bind_none, Option.getD_none]
    | some line =>
      obtain ⟨⟨b, rest, rfl, hb⟩, hcomment, hlists⟩ := h line hline
      obtain ⟨hext, token, htoken⟩ := firstWith_spec hline
      simp only [Option.bind_some, htoken, Option.getD_some]
      rw [(tokens_of_nonblank hb rest).1] at htoken hext
      -- the extension is listed in this line, or it is its type
      by_cases htail : ext ∈ (words (b :: rest)).tail
      · simp only [listing_of_firstWith hline hcomment htail]
        rw [List.headD_eq_head?_getD, htoken, Option.getD_some]
      · obtain ⟨line', hline', hhead⟩ := hlists.resolve_left htail
        obtain ⟨others, hcons⟩ := List.head?_eq_some_iff.mp htoken
        rw [hcons] at hext htail
        have htype : ext = token := (List.mem_cons.mp hext).resolve_right htail
        simp only [hline']
        rw [List.headD_eq_head?_getD, hhead, Option.getD_some, htype]

/-- A type is looked up as if it were an extension. -/
theorem type_is_no_extension :
    ¬ ∀ text defaultType ext : Bytes, (MimeDb.create text defaultType).mimeOfExt ext
      = specified text defaultType ext := by
  intro h
  have heq := h (ascii "text/html html") (ascii "application/octet-stream") (ascii "text/html")
  exact absurd heq (by decide +kernel)

end Cs457.Http
