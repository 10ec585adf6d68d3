import Mathlib.Data.List.Forall2

/-!
# Lines and patterns

Texts read line by line, and regular expressions that are a row of character classes, each
repeated at least once, some of them groups. The matcher takes as much as it can at each place and
backtracks.

* **`regexMatch_eq_some_iff`** — where neighbouring classes share no character, a text matches
  exactly when it can be cut into pieces that fit, and the groups are those pieces.
* **`lines_append`** — lines that are written one after the other are read back.
-/

namespace TextPattern

variable {α : Type}

/-! ## Patterns -/

/-- A class of characters with `+` behind it, and whether what it takes is a group. -/
structure Item (α : Type) where
  allows : α → Bool
  group : Bool

namespace Item

/-- What the item may take off a text and what it leaves of it, the longest first. -/
def takes (i : Item α) : List α → List (List α × List α)
  | [] => []
  | a :: rest =>
    if i.allows a then ((i.takes rest).map fun t => (a :: t.1, t.2)) ++ [([a], rest)] else []

/-- A piece that fits the item. -/
def Accepts (i : Item α) (piece : List α) : Prop := piece ≠ [] ∧ ∀ a ∈ piece, i.allows a

/-- An item takes one element, and stops or goes on. -/
theorem accepts_cons {i : Item α} {a : α} {piece : List α} :
    i.Accepts (a :: piece) ↔ i.allows a ∧ (piece = [] ∨ i.Accepts piece) := by
  constructor
  · rintro ⟨_, hall⟩
    refine ⟨hall a List.mem_cons_self, ?_⟩
    by_cases hnil : piece = []
    · exact Or.inl hnil
    · exact Or.inr ⟨hnil, fun b hb => hall b (List.mem_cons_of_mem a hb)⟩
  · rintro ⟨ha, rfl | ⟨_, hall⟩⟩
    · exact ⟨List.cons_ne_nil _ _, fun b hb => List.mem_singleton.mp hb ▸ ha⟩
    · refine ⟨List.cons_ne_nil _ _, fun b hb => ?_⟩
      rcases List.mem_cons.mp hb with rfl | hb
      · exact ha
      · exact hall b hb

/-- An item takes any non-empty prefix that it allows. -/
theorem mem_takes {i : Item α} {s piece rest : List α} :
    (piece, rest) ∈ i.takes s ↔ i.Accepts piece ∧ piece ++ rest = s := by
  induction s generalizing piece with
  | nil =>
    simp only [takes, List.not_mem_nil, List.append_eq_nil_iff, false_iff]
    rintro ⟨haccepts, hnil, _⟩
    exact haccepts.1 hnil
  | cons a s ih =>
    cases piece with
    | nil =>
      have hnil : ¬ i.Accepts [] := fun haccepts => haccepts.1 rfl
      simp only [hnil, false_and, iff_false, takes]
      split
      · simp
      · simp
    | cons b piece =>
      -- The first character is allowed, and the piece ends behind it or goes on.
      have hcons : (b :: piece, rest) ∈ i.takes (a :: s) ↔
          i.allows a ∧ a = b ∧ ((piece, rest) ∈ i.takes s ∨ piece = [] ∧ rest = s) := by
        rw [takes]
        split
        · next hallows =>
          simp only [List.mem_append, List.mem_map, Prod.mk.injEq, List.cons.injEq, Prod.exists,
            List.mem_singleton, hallows, true_and]
          constructor
          · rintro (⟨p, r, hmem, ⟨rfl, rfl⟩, rfl⟩ | ⟨⟨rfl, rfl⟩, rfl⟩)
            · exact ⟨rfl, Or.inl hmem⟩
            · exact ⟨rfl, Or.inr ⟨rfl, rfl⟩⟩
          · rintro ⟨rfl, hmem | ⟨rfl, rfl⟩⟩
            · exact Or.inl ⟨piece, rest, hmem, ⟨rfl, rfl⟩, rfl⟩
            · exact Or.inr ⟨⟨rfl, rfl⟩, rfl⟩
        · next hallows => simp [hallows]
      rw [hcons, ih, accepts_cons, List.cons_append, List.cons.injEq]
      constructor
      · rintro ⟨hallows, rfl, ⟨haccepts, hs⟩ | ⟨rfl, rfl⟩⟩
        · exact ⟨⟨hallows, Or.inr haccepts⟩, rfl, hs⟩
        · exact ⟨⟨hallows, Or.inl rfl⟩, rfl, rfl⟩
      · rintro ⟨⟨hallows, rfl | haccepts⟩, rfl, hs⟩
        · exact ⟨hallows, rfl, Or.inr ⟨rfl, hs⟩⟩
        · exact ⟨hallows, rfl, Or.inl ⟨haccepts, hs⟩⟩

end Item

/-- `regex_match`: the groups of the first match of the whole text. -/
def regexMatch : List (Item α) → List α → Option (List (List α))
  | [], s => if s.isEmpty then some [] else none
  | i :: items, s => (i.takes s).findSome? fun t =>
    (regexMatch items t.2).map fun groups => if i.group then t.1 :: groups else groups

/-- The pieces that are groups. -/
def groupsOf : List (Item α) → List (List α) → List (List α)
  | i :: items, piece :: pieces =>
    if i.group then piece :: groupsOf items pieces else groupsOf items pieces
  | _, _ => []

/-- A text cut into pieces that fit the items. -/
def Fits (items : List (Item α)) (pieces : List (List α)) : Prop :=
  List.Forall₂ Item.Accepts items pieces

/-- Neighbours have no character in common. -/
def Separated : List (Item α) → Prop
  | i :: j :: items => (∀ a, i.allows a → ¬ j.allows a) ∧ Separated (j :: items)
  | _ => True

/-- A match has pieces that fit, and its groups are among them. -/
theorem regexMatch_sound {items : List (Item α)} {s : List α} {groups : List (List α)}
    (h : regexMatch items s = some groups) :
    ∃ pieces, Fits items pieces ∧ pieces.flatten = s ∧ groupsOf items pieces = groups := by
  induction items generalizing s groups with
  | nil =>
    rw [regexMatch] at h
    split at h
    · next hnil => exact ⟨[], .nil, (List.isEmpty_iff.mp hnil).symm, by simpa [groupsOf] using h⟩
    · cases h
  | cons i items ih =>
    obtain ⟨⟨piece, rest⟩, hmem, hrest⟩ := List.exists_of_findSome?_eq_some h
    obtain ⟨haccepts, hs⟩ := Item.mem_takes.mp hmem
    obtain ⟨groups', hgroups', hgroups⟩ := Option.map_eq_some_iff.mp hrest
    obtain ⟨pieces, hfits, hflat, hof⟩ := ih hgroups'
    refine ⟨piece :: pieces, .cons haccepts hfits, ?_, ?_⟩
    · rw [List.flatten_cons, hflat, hs]
    · rw [groupsOf, hof, hgroups]

/-- Pieces that fit make a match. -/
theorem regexMatch_complete {items : List (Item α)} {pieces : List (List α)}
    (h : Fits items pieces) : (regexMatch items pieces.flatten).isSome := by
  induction h with
  | nil => rfl
  | @cons i piece items pieces haccepts _ ih =>
    rw [regexMatch, List.findSome?_isSome_iff]
    exact ⟨(piece, pieces.flatten), Item.mem_takes.mpr ⟨haccepts, by rw [List.flatten_cons]⟩,
      by rw [Option.isSome_map, ih]⟩

/-- Two pieces with the same text behind them are equal when that text can only go on with
characters that they have not. -/
theorem piece_unique {p p' rest rest' : List α} {allows : α → Bool} (hp' : ∀ a ∈ p', allows a)
    (hrest : ∀ a ∈ rest.head?, ¬ allows a) (heq : p ++ rest = p' ++ rest') :
    p'.length ≤ p.length := by
  by_contra hlt
  have hhead : rest.head? = p'[p.length]? := by
    have hget : (p ++ rest)[p.length]? = (p' ++ rest')[p.length]? := by rw [heq]
    rw [List.getElem?_append_right (Nat.le_refl _), Nat.sub_self,
      List.getElem?_append_left (Nat.lt_of_not_le hlt)] at hget
    rw [List.head?_eq_getElem?, hget]
  rw [List.getElem?_eq_getElem (Nat.lt_of_not_le hlt)] at hhead
  exact hrest _ hhead (hp' _ (List.getElem_mem _))

/-- A match starts with what its first item allows. -/
theorem head?_of_fits {i : Item α} {items : List (Item α)} {pieces : List (List α)}
    (h : Fits (i :: items) pieces) : ∀ a ∈ pieces.flatten.head?, i.allows a := by
  obtain _ | ⟨haccepts, _⟩ := h
  next piece pieces =>
  obtain ⟨b, piece, rfl⟩ := List.exists_cons_of_ne_nil haccepts.1
  intro a ha
  rw [List.flatten_cons, List.cons_append, List.head?_cons, Option.mem_some] at ha
  exact ha ▸ haccepts.2 b List.mem_cons_self

/-- **A text is cut in one way.** Induction on the items: each piece ends where the next class
begins. -/
theorem fits_unique {items : List (Item α)} (hsep : Separated items)
    {pieces pieces' : List (List α)} (h : Fits items pieces) (h' : Fits items pieces')
    (heq : pieces.flatten = pieces'.flatten) : pieces = pieces' := by
  induction items generalizing pieces pieces' with
  | nil =>
    obtain rfl := List.forall₂_nil_left_iff.mp h
    exact (List.forall₂_nil_left_iff.mp h').symm
  | cons i items ih =>
    obtain _ | ⟨haccepts, hfits⟩ := h
    obtain _ | ⟨haccepts', hfits'⟩ := h'
    next piece pieces piece' pieces' =>
    rw [List.flatten_cons, List.flatten_cons] at heq
    -- Whatever follows a piece starts with a character the piece does not allow, so the piece
    -- cannot be longer.
    have hstop : ∀ {qs}, Fits items qs → ∀ a ∈ qs.flatten.head?, ¬ i.allows a := by
      intro qs hqs a ha hallows
      cases items with
      | nil =>
        obtain rfl := List.forall₂_nil_left_iff.mp hqs
        cases ha
      | cons j items => exact hsep.1 a hallows (head?_of_fits hqs a ha)
    have hlen : piece.length = piece'.length := Nat.le_antisymm
      (piece_unique haccepts.2 (hstop hfits') heq.symm) (piece_unique haccepts'.2 (hstop hfits) heq)
    obtain ⟨rfl, hflat⟩ := List.append_inj heq hlen
    have hsep' : Separated items := by
      cases items with
      | nil => exact trivial
      | cons j items => exact hsep.2
    rw [ih hsep' hfits hfits' hflat]

/-- **A match.** -/
theorem regexMatch_eq_some_iff {items : List (Item α)} (hsep : Separated items) {s : List α}
    {groups : List (List α)} : regexMatch items s = some groups ↔
      ∃ pieces, Fits items pieces ∧ pieces.flatten = s ∧ groupsOf items pieces = groups := by
  refine ⟨regexMatch_sound, ?_⟩
  rintro ⟨pieces, hfits, rfl, rfl⟩
  obtain ⟨groups, hgroups⟩ := Option.isSome_iff_exists.mp (regexMatch_complete hfits)
  obtain ⟨pieces', hfits', hflat, hof⟩ := regexMatch_sound hgroups
  rw [hgroups, ← hof, fits_unique hsep hfits' hfits hflat]

/-! ## Lines -/

/-- The lines that `std::getline` reads. The last one may lack its end. -/
def lines [DecidableEq α] (newline : α) : List α → List (List α)
  | [] => []
  | a :: rest =>
    if a = newline then [] :: lines newline rest
    else match lines newline rest with
      | [] => [[a]]
      | line :: others => (a :: line) :: others

variable [DecidableEq α] {newline : α}

/-- A text without a newline is one line. -/
theorem lines_of_line {line : List α} (h : newline ∉ line) (hne : line ≠ []) :
    lines newline line = [line] := by
  induction line with
  | nil => exact absurd rfl hne
  | cons a line ih =>
    rw [List.mem_cons, not_or] at h
    rw [lines, if_neg (Ne.symm h.1)]
    cases line with
    | nil => rfl
    | cons b line => rw [ih h.2 (List.cons_ne_nil _ _)]

/-- The lines are cut out of the text. -/
theorem mem_of_mem_lines {text line : List α} (h : line ∈ lines newline text) :
    ∀ a ∈ line, a ∈ text := by
  -- induction on the text, as `lines` recurses
  induction text generalizing line with
  | nil => exact absurd h List.not_mem_nil
  | cons b text ih =>
    unfold lines at h
    intro a ha
    split at h
    · rcases List.mem_cons.mp h with rfl | h
      · exact absurd ha List.not_mem_nil
      · exact List.mem_cons_of_mem _ (ih h a ha)
    · split at h
      · next hnil =>
        rw [List.mem_singleton.mp h, List.mem_singleton] at ha
        exact ha ▸ List.mem_cons_self
      · next first others hlines =>
        rw [hlines] at ih
        rcases List.mem_cons.mp h with rfl | h
        · rcases List.mem_cons.mp ha with rfl | ha
          · exact List.mem_cons_self
          · exact List.mem_cons_of_mem _ (ih List.mem_cons_self a ha)
        · exact List.mem_cons_of_mem _ (ih (List.mem_cons_of_mem _ h) a ha)

/-- A line ends at its newline. -/
theorem lines_cons {line rest : List α} (h : newline ∉ line) :
    lines newline (line ++ newline :: rest) = line :: lines newline rest := by
  induction line with
  | nil => rw [List.nil_append, lines, if_pos rfl]
  | cons a line ih =>
    rw [List.mem_cons, not_or] at h
    rw [List.cons_append, lines, if_neg (Ne.symm h.1), ih h.2]

/-- Lines that end are read back, whatever follows them. -/
theorem lines_append {ls : List (List α)} (h : ∀ line ∈ ls, newline ∉ line) (rest : List α) :
    lines newline (ls.flatMap (fun line => line ++ [newline]) ++ rest)
      = ls ++ lines newline rest := by
  induction ls with
  | nil => rfl
  | cons line ls ih =>
    rw [List.flatMap_cons, List.append_assoc, List.append_assoc, List.singleton_append,
      lines_cons (h line List.mem_cons_self), ih fun l hl => h l (List.mem_cons_of_mem line hl),
      List.cons_append]

end TextPattern
