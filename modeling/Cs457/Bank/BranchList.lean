import Cs457.Bank.Opening
import Cs457.Lib.TextPattern

/-!
# Bank — the list of branches

The controller reads the branches from a file, one a line: the name, the address and the port.
The file decides who the branches are, what each of them is given and whom it talks to.

* **`branches_file_read`** — what the controller makes of any file.
* **`branches_file_started`** — a list that is written to a file reaches the branches.
-/

namespace Cs457.Bank

open TextPattern

/-! ## Reading the list -/

/-- `\s`. -/
def isBlank (c : Char) : Bool := [' ', '\t', '\n', '\x0b', '\x0c', '\r'].contains c

/-- `(\S+)\s+(\S+)\s+(\d+)`. -/
def lineRe : List (Item Char) :=
  [⟨fun c => !isBlank c, true⟩, ⟨isBlank, false⟩, ⟨fun c => !isBlank c, true⟩, ⟨isBlank, false⟩,
    ⟨Char.isDigit, true⟩]

/-- What is thrown. -/
inductive ListFault where
  | invalidArgument (what : String)
  | runtimeError (what : String)
  | outOfRange
  deriving DecidableEq, Repr

/-- What the path leads to: no regular file, one that does not open, or its text. -/
inductive BranchesFile where
  | missing
  | closed
  | text (chars : List Char)

/-- `std::stoul` of digits. -/
def stoul (digits : List Char) : Except ListFault UInt64 :=
  let n := Nat.ofDigitChars 10 digits 0
  if n < 2 ^ 64 then .ok (UInt64.ofNat n) else .error .outOfRange

/-- The body of the loop of `do_read_list`. The `unsigned long` becomes a `uint16_t`. -/
def readLine (line : List Char) : Except ListFault PeerInfo :=
  match regexMatch lineRe line with
  | some [name, ip, port] => do
    let port ← stoul port
    return ⟨String.ofList name, String.ofList ip, port.toUInt16⟩
  | _ => .error (.runtimeError "Invalid format in input file")

def readLines : List PeerInfo → List (List Char) → Except ListFault (List PeerInfo)
  | peers, [] => .ok peers
  | peers, line :: rest => do
    let peer ← readLine line
    readLines (peers ++ [peer]) rest

/-- `do_read_list`: the controller with which it calls `do_init_branches`. The addresses that it
adds to the message are those of `d_peers`. -/
def Controller.doReadList (initialBal : UInt64) : BranchesFile → Except ListFault Controller
  | .missing => .error (.invalidArgument "Invalid branches file")
  | .closed => .error (.invalidArgument "Can't open branches file")
  | .text chars => do
    let peers ← readLines [] (lines '\n' chars)
    return ⟨peers, initialBal⟩

/-! ## What a line says -/

def IsWord (s : List Char) : Prop := s ≠ [] ∧ ∀ c ∈ s, isBlank c = false

def IsGap (s : List Char) : Prop := s ≠ [] ∧ ∀ c ∈ s, isBlank c

def IsNumber (s : List Char) : Prop := s ≠ [] ∧ ∀ c ∈ s, c.isDigit

instance (s : List Char) : Decidable (IsWord s) :=
  @instDecidableAnd _ _ inferInstance (List.decidableBAll (fun c => isBlank c = false) s)

instance (s : List Char) : Decidable (IsGap s) :=
  @instDecidableAnd _ _ inferInstance (List.decidableBAll (fun c => isBlank c = true) s)

/-- The line has a name, an address and a port with blanks between them. -/
def IsEntry (name ip port line : List Char) : Prop :=
  ∃ gap gap', IsWord name ∧ IsGap gap ∧ IsWord ip ∧ IsGap gap' ∧ IsNumber port ∧
    line = name ++ gap ++ ip ++ gap' ++ port

/-- The line describes the branch. Of a port that is too large only the lower bits count. -/
def Describes (line : List Char) (peer : PeerInfo) : Prop :=
  ∃ port, IsEntry peer.name.toList peer.ip.toList port line ∧
    Nat.ofDigitChars 10 port 0 < 2 ^ 64 ∧
    peer.port.toNat = Nat.ofDigitChars 10 port 0 % 2 ^ 16

/-- The line is refused with the fault. -/
def Refused (line : List Char) : ListFault → Prop
  | .runtimeError what => what = "Invalid format in input file" ∧
      ∀ name ip port, ¬ IsEntry name ip port line
  | .outOfRange => ∃ name ip port, IsEntry name ip port line ∧
      2 ^ 64 ≤ Nat.ofDigitChars 10 port 0
  | .invalidArgument _ => False

theorem not_isBlank_of_isDigit {c : Char} (h : c.isDigit) : isBlank c = false := by
  by_contra hblank
  rw [Bool.not_eq_false, isBlank, List.contains_iff_mem] at hblank
  simp only [List.mem_cons, List.not_mem_nil, or_false] at hblank
  rcases hblank with rfl | rfl | rfl | rfl | rfl | rfl <;> exact absurd h (by decide)

/-- Words and blanks alternate, so there is at most one way to match. -/
theorem separated_lineRe : Separated lineRe := by
  have hword : ∀ c, (!isBlank c) = true → ¬ isBlank c = true := fun c h => by simpa using h
  have hgap : ∀ c, isBlank c = true → ¬ (!isBlank c) = true := fun c h => by simpa using h
  have hnumber : ∀ c, isBlank c = true → ¬ c.isDigit = true := fun c h hdigit =>
    absurd h (by rw [not_isBlank_of_isDigit hdigit]; decide)
  exact ⟨hword, hgap, hword, hnumber, trivial⟩

/-- The items for words match the words. -/
theorem accepts_word {s : List Char} (group : Bool) :
    (Item.mk (fun c => !isBlank c) group).Accepts s ↔ IsWord s := by
  simp only [Item.Accepts, IsWord, Bool.not_eq_true']

/-- **The expression** splits the entries and nothing else, each of them in one way. -/
theorem regexMatch_lineRe {line : List Char} {groups : List (List Char)} :
    regexMatch lineRe line = some groups ↔
      ∃ name ip port, groups = [name, ip, port] ∧ IsEntry name ip port line := by
  rw [regexMatch_eq_some_iff separated_lineRe]
  constructor
  · rintro ⟨pieces, hfits, rfl, rfl⟩
    obtain ⟨name, _, hname, hfrom, rfl⟩ := List.forall₂_cons_left_iff.mp hfits
    obtain ⟨gap, _, hgap, hfrom', rfl⟩ := List.forall₂_cons_left_iff.mp hfrom
    obtain ⟨ip, _, hip, hfrom'', rfl⟩ := List.forall₂_cons_left_iff.mp hfrom'
    obtain ⟨gap', _, hgap', hlast, rfl⟩ := List.forall₂_cons_left_iff.mp hfrom''
    obtain ⟨port, _, hport, hnil, rfl⟩ := List.forall₂_cons_left_iff.mp hlast
    obtain rfl := List.forall₂_nil_left_iff.mp hnil
    refine ⟨name, ip, port, rfl, gap, gap', (accepts_word true).mp hname, hgap,
      (accepts_word true).mp hip, hgap', hport, ?_⟩
    simp only [List.flatten_cons, List.flatten_nil, List.append_nil, List.append_assoc]
  · rintro ⟨name, ip, port, rfl, gap, gap', hname, hgap, hip, hgap', hport, rfl⟩
    refine ⟨[name, gap, ip, gap', port], .cons ((accepts_word true).mpr hname) (.cons hgap
      (.cons ((accepts_word true).mpr hip) (.cons hgap' (.cons hport .nil)))), ?_, rfl⟩
    simp only [List.flatten_cons, List.flatten_nil, List.append_nil, List.append_assoc]

/-- A line that is no entry does not match. -/
theorem regexMatch_lineRe_none {line : List Char} :
    regexMatch lineRe line = none ↔ ∀ name ip port, ¬ IsEntry name ip port line := by
  constructor
  · intro hnone name ip port hentry
    rw [regexMatch_lineRe.mpr ⟨name, ip, port, rfl, hentry⟩] at hnone
    cases hnone
  · intro hall
    by_contra hsome
    obtain ⟨groups, hgroups⟩ := Option.ne_none_iff_exists'.mp hsome
    obtain ⟨name, ip, port, _, hentry⟩ := regexMatch_lineRe.mp hgroups
    exact hall name ip port hentry

/-- A line that is an entry. -/
theorem readLine_entry {name ip port line : List Char} (h : IsEntry name ip port line) :
    readLine line = (stoul port).map fun n =>
      ⟨String.ofList name, String.ofList ip, n.toUInt16⟩ := by
  rw [readLine, regexMatch_lineRe.mpr ⟨name, ip, port, rfl, h⟩]
  rfl

/-- A line is read as the peer it describes, and only as that. -/
theorem readLine_ok_iff {line : List Char} {peer : PeerInfo} :
    readLine line = .ok peer ↔ Describes line peer := by
  constructor
  · intro h
    cases hmatch : regexMatch lineRe line with
    | none => rw [readLine, hmatch] at h; cases h
    | some groups =>
      obtain ⟨name, ip, port, _, hentry⟩ := regexMatch_lineRe.mp hmatch
      rw [readLine_entry hentry, stoul] at h
      split at h
      · next hlt =>
        cases h
        refine ⟨port, by rwa [String.toList_ofList, String.toList_ofList], hlt, ?_⟩
        rw [UInt64.toNat_toUInt16, UInt64.toNat_ofNat_of_lt' hlt]
      · cases h
  · rintro ⟨port, hentry, hlt, hport⟩
    rw [readLine_entry hentry, stoul, if_pos hlt, String.ofList_toList, String.ofList_toList]
    have hsame : (UInt64.ofNat (Nat.ofDigitChars 10 port 0)).toUInt16 = peer.port := by
      rw [← UInt16.toNat_inj, UInt64.toNat_toUInt16, UInt64.toNat_ofNat_of_lt' hlt, hport]
    rw [Except.map, hsame]

/-- There is one way to read an entry: another would be another match. -/
theorem IsEntry.port_unique {name ip port name' ip' port' line : List Char}
    (h : IsEntry name ip port line) (h' : IsEntry name' ip' port' line) : port' = port := by
  have hsame := (regexMatch_lineRe.mpr ⟨name, ip, port, rfl, h⟩).symm.trans
    (regexMatch_lineRe.mpr ⟨name', ip', port', rfl, h'⟩)
  simp only [Option.some.injEq, List.cons.injEq, and_true] at hsame
  exact hsame.2.2.symm

/-- An entry can only be refused for its number. -/
theorem IsEntry.refused_iff {name ip port line : List Char} (h : IsEntry name ip port line)
    {fault : ListFault} :
    Refused line fault ↔ .outOfRange = fault ∧ 2 ^ 64 ≤ Nat.ofDigitChars 10 port 0 := by
  cases fault with
  | invalidArgument what => simp [Refused]
  | runtimeError what =>
    constructor
    · exact fun hrefused => absurd h (hrefused.2 name ip port)
    · exact fun hfault => nomatch hfault.1
  | outOfRange =>
    constructor
    · rintro ⟨name', ip', port', hentry, hle⟩
      exact ⟨rfl, h.port_unique hentry ▸ hle⟩
    · exact fun hfault => ⟨name, ip, port, h, hfault.2⟩

/-- Any other line is refused for its form. -/
theorem refused_iff_of_no_entry {line : List Char} (h : ∀ name ip port, ¬ IsEntry name ip port line)
    {fault : ListFault} :
    Refused line fault ↔ .runtimeError "Invalid format in input file" = fault := by
  cases fault with
  | invalidArgument what => simp [Refused]
  | runtimeError what =>
    rw [Refused, ListFault.runtimeError.injEq, eq_comm, and_iff_left h]
  | outOfRange => simp [Refused, h]

/-- A line is refused for one of two reasons: it is no entry, or its port does not fit 64 bits.
`stoul` always finds a number in it. -/
theorem readLine_error_iff {line : List Char} {fault : ListFault} :
    readLine line = .error fault ↔ Refused line fault := by
  cases hmatch : regexMatch lineRe line with
  | none =>
    rw [refused_iff_of_no_entry (regexMatch_lineRe_none.mp hmatch), readLine, hmatch]
    simp only [Except.error.injEq]
  | some groups =>
    obtain ⟨name, ip, port, _, hentry⟩ := regexMatch_lineRe.mp hmatch
    rw [hentry.refused_iff, readLine_entry hentry, stoul]
    split
    · next hlt =>
      constructor
      · intro h
        cases h
      · exact fun h => absurd hlt (not_lt.mpr h.2)
    · next hle => simp only [Except.map, Except.error.injEq, and_iff_left (not_lt.mp hle)]

/-! ## What a file says -/

/-- The loop, from the branches that it has. Induction on the lines. -/
theorem readLines_ok_iff {ls : List (List Char)} {peers all : List PeerInfo} :
    readLines peers ls = .ok all ↔
      ∃ more, all = peers ++ more ∧ List.Forall₂ Describes ls more := by
  induction ls generalizing peers with
  | nil =>
    rw [readLines, Except.ok.injEq]
    constructor
    · rintro rfl
      exact ⟨[], (List.append_nil _).symm, .nil⟩
    · rintro ⟨more, rfl, hmore⟩
      rw [List.forall₂_nil_left_iff.mp hmore, List.append_nil]
  | cons line ls ih =>
    rw [readLines]
    cases hline : readLine line with
    -- `doReadList` stops at the first refused line, so no list describes these lines.
    | error fault =>
      constructor
      · intro h
        cases h
      · rintro ⟨more, _, hmore⟩
        obtain ⟨peer, _, hfirst, _, rfl⟩ := List.forall₂_cons_left_iff.mp hmore
        rw [readLine_ok_iff.mpr hfirst] at hline
        cases hline
    | ok peer =>
      have hpeer := readLine_ok_iff.mp hline
      -- The line adds one peer; a list of peers describes the rest if and only if its tail does.
      refine ih.trans ⟨?_, ?_⟩
      · rintro ⟨more, rfl, hmore⟩
        exact ⟨peer :: more, by rw [List.append_assoc, List.singleton_append], .cons hpeer hmore⟩
      · rintro ⟨more, rfl, hmore⟩
        obtain ⟨peer', more, hfirst, hrest, rfl⟩ := List.forall₂_cons_left_iff.mp hmore
        have hsame : peer' = peer := by
          rw [readLine_ok_iff.mpr hfirst, Except.ok.injEq] at hline
          exact hline
        exact ⟨more, by rw [hsame, List.append_assoc, List.singleton_append], hrest⟩

/-- The first line that is refused ends the loop. Induction on the lines. -/
theorem readLines_error_iff {ls : List (List Char)} {peers : List PeerInfo} {fault : ListFault} :
    readLines peers ls = .error fault ↔ ∃ before line after more, ls = before ++ line :: after ∧
      List.Forall₂ Describes before more ∧ Refused line fault := by
  induction ls generalizing peers with
  | nil => simp [readLines]
  | cons first ls ih =>
    rw [readLines]
    cases hline : readLine first with
    | error fault' =>
      have hfirst := readLine_error_iff.mp hline
      constructor
      · intro h
        cases h
        exact ⟨[], first, ls, [], rfl, .nil, hfirst⟩
      · -- The refused line is the first: an earlier one would have been described.
        rintro ⟨before, line, after, more, heq, hmore, hrefused⟩
        cases before with
        | nil =>
          obtain ⟨rfl, _⟩ := List.cons.inj heq
          rw [readLine_error_iff.mpr hrefused, Except.error.injEq] at hline
          rw [hline]
          rfl
        | cons line' before =>
          obtain ⟨rfl, _⟩ := List.cons.inj heq
          obtain _ | ⟨hdescribes, _⟩ := hmore
          rw [readLine_ok_iff.mpr hdescribes] at hline
          cases hline
    | ok peer =>
      have hpeer := readLine_ok_iff.mp hline
      -- The first line is described, so the refused one is among the rest.
      refine ih.trans ⟨?_, ?_⟩
      · rintro ⟨before, line, after, more, rfl, hmore, hrefused⟩
        exact ⟨first :: before, line, after, peer :: more, rfl, .cons hpeer hmore, hrefused⟩
      · rintro ⟨before, line, after, more, heq, hmore, hrefused⟩
        cases before with
        | nil =>
          obtain ⟨rfl, _⟩ := List.cons.inj heq
          rw [readLine_error_iff.mpr hrefused] at hline
          cases hline
        | cons line' before =>
          obtain ⟨rfl, rfl⟩ := List.cons.inj heq
          obtain _ | ⟨_, hrest⟩ := hmore
          exact ⟨before, line, after, _, rfl, hrest, hrefused⟩

/-- **What the controller makes of a file.** It has the branches that the lines describe, one for
each, or stops at the first line that describes none. -/
theorem branches_file_read (initialBal : UInt64) (chars : List Char) :
    (∀ ctl, Controller.doReadList initialBal (.text chars) = .ok ctl ↔
      ctl.balance = initialBal ∧ List.Forall₂ Describes (lines '\n' chars) ctl.peers) ∧
    ∀ fault, Controller.doReadList initialBal (.text chars) = .error fault ↔
      ∃ before line after peers, lines '\n' chars = before ++ line :: after ∧
        List.Forall₂ Describes before peers ∧ Refused line fault := by
  have hok := @readLines_ok_iff (lines '\n' chars) []
  have herror := @readLines_error_iff (lines '\n' chars) []
  rw [Controller.doReadList]
  cases hread : readLines [] (lines '\n' chars) with
  | error fault =>
    rw [hread] at hok herror
    constructor
    · intro ctl
      constructor
      · intro h
        cases h
      · rintro ⟨_, hpeers⟩
        cases hok.mpr ⟨ctl.peers, rfl, hpeers⟩
    · intro fault'
      rw [← herror]
      constructor
      · intro h
        cases h
        rfl
      · intro h
        cases h
        rfl
  | ok peers =>
    rw [hread] at hok herror
    constructor
    · intro ctl
      constructor
      · intro h
        cases h
        obtain ⟨more, rfl, hmore⟩ := hok.mp rfl
        exact ⟨rfl, hmore⟩
      · rintro ⟨rfl, hpeers⟩
        cases hok.mpr ⟨ctl.peers, rfl, hpeers⟩
        rfl
    · intro fault
      constructor
      · intro h
        cases h
      · intro h
        cases herror.mpr h

/-! ## Writing a list -/

/-- A line for a branch, with the blanks that are put between its parts. -/
structure Entry where
  peer : PeerInfo
  gap : List Char
  gap' : List Char

/-- The name and the address are words, and the blanks do not end the line. -/
structure Entry.Fits (e : Entry) : Prop where
  name : IsWord e.peer.name.toList
  ip : IsWord e.peer.ip.toList
  gap : IsGap e.gap
  gap' : IsGap e.gap'
  gap_line : '\n' ∉ e.gap
  gap'_line : '\n' ∉ e.gap'

def Entry.line (e : Entry) : List Char :=
  e.peer.name.toList ++ e.gap ++ e.peer.ip.toList ++ e.gap' ++ (toString e.peer.port.toNat).toList

/-- The text of a list. The last line may be left without its end. -/
def listText (terminated : Bool) (written : List Entry) : List Char :=
  let text := written.flatMap fun e => e.line ++ ['\n']
  if terminated then text else text.dropLast

/-- A port as `operator<<` writes it reads back. -/
theorem digits_port (n : ℕ) :
    IsNumber (toString n).toList ∧ Nat.ofDigitChars 10 (toString n).toList 0 = n := by
  have hdigits : (toString n).toList = Nat.toDigits 10 n := Nat.toList_repr
  rw [hdigits]
  exact ⟨⟨Nat.toDigits_ne_nil, fun c hc => Nat.isDigit_of_mem_toDigits (by decide) (by decide) hc⟩,
    Nat.ofDigitChars_ten_toDigits⟩

/-- An entry that fits describes its peer. -/
theorem Entry.describes {e : Entry} (h : e.Fits) : Describes e.line e.peer := by
  obtain ⟨hnumber, hvalue⟩ := digits_port e.peer.port.toNat
  have hport := e.peer.port.toNat_lt
  refine ⟨_, ⟨e.gap, e.gap', h.name, h.gap, h.ip, h.gap', hnumber, rfl⟩, ?_, ?_⟩
  · rw [hvalue]
    omega
  · rw [hvalue, Nat.mod_eq_of_lt hport]

/-- An entry is one line. -/
theorem Entry.newline_notMem {e : Entry} (h : e.Fits) : '\n' ∉ e.line := by
  have hword : ∀ {s}, IsWord s → '\n' ∉ s := fun hs hmem => absurd (hs.2 _ hmem) (by decide)
  have hnumber : '\n' ∉ (toString e.peer.port.toNat).toList := fun hmem =>
    absurd ((digits_port e.peer.port.toNat).1.2 _ hmem) (by decide)
  simp only [Entry.line, List.mem_append, not_or]
  exact ⟨⟨⟨⟨hword h.name, h.gap_line⟩, hword h.ip⟩, h.gap'_line⟩, hnumber⟩

/-- The lines of a list are its entries, whether the last one ends or not. -/
theorem lines_listText {written : List Entry} (h : ∀ e ∈ written, e.Fits) (terminated : Bool) :
    lines '\n' (listText terminated written) = written.map Entry.line := by
  -- Every terminated line is read back; what follows it is read on its own.
  have hread : ∀ {es : List Entry}, (∀ e ∈ es, e.Fits) → ∀ rest,
      lines '\n' (es.flatMap (fun e => e.line ++ ['\n']) ++ rest)
        = es.map Entry.line ++ lines '\n' rest := by
    intro es hes rest
    have hlines : ∀ line ∈ es.map Entry.line, '\n' ∉ line := by
      intro line hline
      obtain ⟨e, he, rfl⟩ := List.mem_map.mp hline
      exact Entry.newline_notMem (hes e he)
    rw [← lines_append hlines, List.flatMap_map]
  unfold listText
  cases terminated with
  | true => simpa [lines] using hread h []
  -- The last line has no newline: `std::getline` still returns it unless it is empty.
  | false =>
    rcases List.eq_nil_or_concat' written with rfl | ⟨es, e, rfl⟩
    · rfl
    · have he : e.Fits := h e (List.mem_append_right _ List.mem_cons_self)
      have hne : e.line ≠ [] := by
        rw [Entry.line]
        exact List.append_ne_nil_of_right_ne_nil _ (digits_port _).1.1
      have hdrop : (((es ++ [e]).flatMap fun e => e.line ++ ['\n']).dropLast)
          = es.flatMap (fun e => e.line ++ ['\n']) ++ e.line := by
        rw [List.flatMap_append, List.flatMap_singleton, ← List.append_assoc, List.dropLast_concat]
      rw [if_neg Bool.false_ne_true, hdrop, hread (fun x hx => h x (List.mem_append_left _ hx)),
        lines_of_line (Entry.newline_notMem he) hne, List.map_append, List.map_singleton]

/-- The InitBranch that a controller sends names the branches of its list. -/
theorem Controller.peers_doInitBranches {ctl : Controller} {msg : InitBranch}
    (h : ctl.doInitBranches = some msg) : msg.peers = ctl.peers := by
  rw [InitBranch.peers, (of_doInitBranches h).1, List.map_map]
  refine (List.map_congr_left fun peer _ => ?_).trans (List.map_id _)
  simp [BranchAddress.peer]

/-- **From the file to the branches.** A list that is written to a file is what the branches get:
each of them enters all the others as its peers, in the order of the file, connects to those in its
window and has an equal share of the money. -/
theorem branches_file_started (initialBal : UInt64) {written : List Entry}
    (hfits : ∀ e ∈ written, e.Fits) (hnd : (written.map fun e => e.peer.name).Nodup)
    (terminated : Bool) :
    ∃ ctl, Controller.doReadList initialBal (.text (listText terminated written)) = .ok ctl ∧
      ∀ (b : Branch) o, b.knownPeers = [] →
        (written.map fun e => e.peer.name)[o]? = some b.name →
        ∃ msg b', ctl.doInitBranches = some msg ∧ b.initBranchHandler msg = .ok (b',
            (Branch.targets (written.map Entry.peer) written.length o).map fun peer =>
              .connect peer ⟨.peer b.name peer.name, .opener⟩) ∧
          b'.money.toNat = initialBal.toNat / written.length ∧
          b'.knownPeers = (written.map Entry.peer).eraseIdx o := by
  have hpeers : List.Forall₂ Describes (lines '\n' (listText terminated written))
      (written.map Entry.peer) := by
    rw [lines_listText hfits, List.forall₂_map_left_iff, List.forall₂_map_right_iff,
      List.forall₂_same]
    exact fun e he => Entry.describes (hfits e he)
  have hread := readLines_ok_iff.mpr ⟨_, (List.nil_append _).symm, hpeers⟩
  refine ⟨⟨written.map Entry.peer, initialBal⟩, ?_, fun b o hfresh ho => ?_⟩
  · rw [Controller.doReadList, hread]
    rfl
  · let ctl : Controller := ⟨written.map Entry.peer, initialBal⟩
    -- there is a branch, so the division is one by a positive number
    have hne : ctl.peers ≠ [] := by
      intro hnil
      rw [List.map_eq_nil_iff.mp hnil] at ho
      cases ho
    obtain ⟨msg, hmsg⟩ : ∃ msg, ctl.doInitBranches = some msg := ⟨_, if_neg hne⟩
    have hnames : msg.names = written.map fun e => e.peer.name := by
      rw [Controller.names_doInitBranches hmsg, List.map_map]
      rfl
    rw [← hnames] at hnd ho
    obtain ⟨b', hb', _, _, _, hmoney, hknown⟩ := Branch.initBranchHandler_fresh hnd hfresh ho
    rw [Controller.peers_doInitBranches hmsg] at hb' hknown
    rw [hnames, List.length_map] at hb'
    refine ⟨msg, b', hmsg, hb', ?_, hknown⟩
    rw [hmoney, Controller.share_doInitBranches hmsg, List.length_map]

/-- Two branches that share 7, in a file whose last line has no end. -/
def twoEntries : List Entry :=
  [⟨⟨"a", "10.0.0.1", 9090⟩, [' '], ['\t']⟩, ⟨⟨"b", "10.0.0.2", 9091⟩, [' ', ' '], [' ']⟩]

theorem twoEntries_fits : ∀ e ∈ twoEntries, e.Fits := by
  intro e he
  simp only [twoEntries, List.mem_cons, List.not_mem_nil, or_false] at he
  rcases he with rfl | rfl
  · exact ⟨by decide, by decide, by decide, by decide, by decide, by decide⟩
  · exact ⟨by decide, by decide, by decide, by decide, by decide, by decide⟩

theorem branches_file_started_two :
    ∃ ctl, Controller.doReadList 7
        (.text "a 10.0.0.1\t9090\nb  10.0.0.2 9091".toList) = .ok ctl ∧
      ∃ msg b', ctl.doInitBranches = some msg ∧
        ({ name := "b" } : Branch).initBranchHandler msg = .ok (b',
          (Branch.targets (twoEntries.map Entry.peer) 2 1).map fun peer =>
            .connect peer ⟨.peer "b" peer.name, .opener⟩) ∧
        b'.money.toNat = 3 ∧ b'.knownPeers = [⟨"a", "10.0.0.1", 9090⟩] := by
  obtain ⟨ctl, hread, hbranch⟩ :=
    branches_file_started 7 twoEntries_fits (by decide) false
  exact ⟨ctl, hread, hbranch { name := "b" } 1 rfl rfl⟩

end Cs457.Bank
