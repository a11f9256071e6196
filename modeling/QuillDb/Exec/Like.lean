/-
  Exec/Like.lean --- LIKE matches the values that a pattern describes.

  Source: `sql_like`, `_like_chars_equal` of `quilldb/exec/expressions.py`.

  A pattern describes a value by a piece of it for each of its characters.  Entry `j`
  of the table's row says whether the characters read so far are described by the first
  `j` characters of the pattern; a row is read against the pattern split behind `j`.
-/
import QuillDb.Exec.Expressions

set_option autoImplicit false

namespace QuillDb

/-! ## What a pattern describes -/

/-- The same character, but for the case of an ASCII letter. -/
def SameLetter (p c : Char) : Prop := p = c ∨ p.toNat < 128 ∧ c.toNat < 128 ∧ p.toLower = c.toLower

/-- What one character of a pattern stands for. -/
def StandsFor (p : Char) (piece : List Char) : Prop :=
  if p = '%' then True
  else if p = '_' then ∃ c, piece = [c]
  else ∃ c, piece = [c] ∧ SameLetter p c

/-- A value cut into pieces, one for each character of the pattern. -/
def Describes (pattern value : List Char) : Prop :=
  ∃ pieces : List (List Char), pieces.flatten = value ∧ List.Forall₂ StandsFor pattern pieces

theorem likeCharsEqual_iff (p c : Char) : likeCharsEqual p c = true ↔ SameLetter p c := by
  simp [likeCharsEqual, SameLetter, and_assoc]

theorem standsFor_percent (piece : List Char) : StandsFor '%' piece := by simp [StandsFor]

theorem standsFor_underscore {piece : List Char} : StandsFor '_' piece ↔ ∃ c, piece = [c] := by
  simp [StandsFor]

theorem standsFor_letter {p : Char} {piece : List Char} (h : p ≠ '%') (h' : p ≠ '_') :
    StandsFor p piece ↔ ∃ c, piece = [c] ∧ SameLetter p c := by
  simp [StandsFor, h, h']

theorem describes_nil {value : List Char} : Describes [] value ↔ value = [] := by
  constructor
  · rintro ⟨pieces, rfl, hpieces⟩
    cases hpieces
    rfl
  · rintro rfl
    exact ⟨[], rfl, .nil⟩

/-- The last character of the pattern stands for the last piece. -/
theorem describes_concat {pattern value : List Char} {p : Char} : Describes (pattern ++ [p]) value ↔
    ∃ front piece, value = front ++ piece ∧ Describes pattern front ∧ StandsFor p piece := by
  constructor
  · rintro ⟨pieces, rfl, hpieces⟩
    have hreverse := List.forall₂_reverse_iff.mpr hpieces
    rw [List.reverse_append, List.reverse_singleton, List.singleton_append] at hreverse
    rcases hrev : pieces.reverse with _ | ⟨piece, rest⟩
    · rw [hrev] at hreverse
      cases hreverse
    · rw [hrev] at hreverse
      obtain ⟨hpiece, hrest⟩ := List.forall₂_cons.mp hreverse
      have hpieces : pieces = rest.reverse ++ [piece] := by
        rw [← List.reverse_reverse pieces, hrev, List.reverse_cons]
      refine ⟨rest.reverse.flatten, piece, by simp [hpieces], ⟨rest.reverse, rfl, ?_⟩, hpiece⟩
      apply List.forall₂_reverse_iff.mp
      rwa [List.reverse_reverse]
  · rintro ⟨front, piece, rfl, ⟨pieces, rfl, hpieces⟩, hpiece⟩
    exact ⟨pieces ++ [piece], by simp, List.rel_append hpieces (.cons hpiece .nil)⟩

/-! ## The cells of the table -/

section Cells

variable {pattern value : List Char} {p c : Char}

/-- No value is left: only `%` stands for nothing. -/
theorem describes_empty : Describes (pattern ++ [p]) [] ↔ Describes pattern [] ∧ p = '%' := by
  rw [describes_concat]
  constructor
  · rintro ⟨front, piece, hvalue, hfront, hpiece⟩
    obtain ⟨rfl, rfl⟩ := List.append_eq_nil_iff.mp hvalue.symm
    refine ⟨hfront, ?_⟩
    by_contra hp
    by_cases hp' : p = '_'
    · subst hp'
      obtain ⟨c, hc⟩ := standsFor_underscore.mp hpiece
      cases hc
    · obtain ⟨c, hc, -⟩ := (standsFor_letter hp hp').mp hpiece
      cases hc
  · rintro ⟨hfront, rfl⟩
    exact ⟨[], [], rfl, hfront, standsFor_percent []⟩

/-- `%` stands for nothing, or for one character more than before. -/
theorem describes_percent : Describes (pattern ++ ['%']) (value ++ [c]) ↔
    Describes pattern (value ++ [c]) ∨ Describes (pattern ++ ['%']) value := by
  rw [describes_concat, describes_concat]
  constructor
  · rintro ⟨front, piece, hvalue, hfront, -⟩
    rcases List.eq_nil_or_concat piece with rfl | ⟨rest, d, rfl⟩
    · rw [hvalue, List.append_nil]
      exact .inl hfront
    · rw [List.concat_eq_append, ← List.append_assoc] at hvalue
      obtain ⟨hvalue, -⟩ := List.append_inj' hvalue rfl
      exact .inr ⟨front, rest, hvalue, hfront, standsFor_percent _⟩
  · rintro (hpattern | ⟨front, piece, rfl, hfront, -⟩)
    · exact ⟨value ++ [c], [], by simp, hpattern, standsFor_percent _⟩
    · exact ⟨front, piece ++ [c], by simp, hfront, standsFor_percent _⟩

/-- A character that stands for one character. -/
theorem describes_single {q : Char → Prop} (h : ∀ piece, StandsFor p piece ↔ ∃ d, piece = [d] ∧ q d) :
    Describes (pattern ++ [p]) (value ++ [c]) ↔ Describes pattern value ∧ q c := by
  rw [describes_concat]
  constructor
  · rintro ⟨front, piece, hvalue, hfront, hpiece⟩
    obtain ⟨d, rfl, hd⟩ := (h piece).mp hpiece
    obtain ⟨rfl, hlast⟩ := List.append_inj' hvalue rfl
    obtain rfl := List.singleton_inj.mp hlast
    exact ⟨hfront, hd⟩
  · rintro ⟨hfront, hc⟩
    exact ⟨value, [c], rfl, hfront, (h _).mpr ⟨c, rfl, hc⟩⟩

theorem describes_underscore :
    Describes (pattern ++ ['_']) (value ++ [c]) ↔ Describes pattern value := by
  rw [describes_single (q := fun _ => True) fun piece => by simp [standsFor_underscore]]
  simp

theorem describes_letter (h : p ≠ '%') (h' : p ≠ '_') :
    Describes (pattern ++ [p]) (value ++ [c]) ↔ Describes pattern value ∧ SameLetter p c :=
  describes_single fun _ => standsFor_letter h h'

end Cells

/-! ## The rows of the table -/

/-- A row for the characters `value`, from the entry for the pattern up to `done` on. -/
def IsRow (value : List Char) : List Char → List Char → List Bool → Prop
  | done, [], row => ∃ b, row = [b] ∧ (b = true ↔ Describes done value)
  | done, p :: pattern, row =>
      ∃ b rest, row = b :: rest ∧ (b = true ↔ Describes done value) ∧ IsRow value (done ++ [p]) pattern rest

section Rows

variable {value done pattern : List Char} {row : List Bool} {c : Char}

/-- The first entry. -/
theorem IsRow.head (h : IsRow value done pattern row) :
    row.head?.getD false = true ↔ Describes done value := by
  cases pattern with
  | nil =>
      obtain ⟨b, rfl, hb⟩ := h
      simpa using hb
  | cons p pattern =>
      obtain ⟨b, rest, rfl, hb, -⟩ := h
      simpa using hb

/-- The last entry is about the whole pattern. -/
theorem IsRow.last (h : IsRow value done pattern row) :
    row.getLast?.getD false = true ↔ Describes (done ++ pattern) value := by
  induction pattern generalizing done row with
  | nil =>
      obtain ⟨b, rfl, hb⟩ := h
      simpa using hb
  | cons p pattern ih =>
      obtain ⟨b, rest, rfl, -, hrest⟩ := h
      have hlast := ih hrest
      have hne : rest ≠ [] := by
        cases pattern with
        | nil =>
            obtain ⟨b', rfl, -⟩ := hrest
            exact List.cons_ne_nil _ _
        | cons q pattern =>
            obtain ⟨b', rest', rfl, -⟩ := hrest
            exact List.cons_ne_nil _ _
      rw [List.append_assoc, List.singleton_append] at hlast
      rwa [List.getLast?_cons_of_ne_nil hne]

theorem likeStart_isRow {matched : Bool} (h : matched = true ↔ Describes done []) :
    IsRow [] done pattern (likeStart matched pattern) := by
  induction pattern generalizing done matched with
  | nil => exact ⟨matched, rfl, h⟩
  | cons p pattern ih =>
      refine ⟨matched, _, rfl, h, ih ?_⟩
      rw [describes_empty, Bool.and_eq_true, h, decide_eq_true_iff]

theorem likeNext_isRow {next : Bool} (hrow : IsRow value done pattern row)
    (h : next = true ↔ Describes done (value ++ [c])) :
    IsRow (value ++ [c]) done pattern (likeNext c next pattern row) := by
  induction pattern generalizing done row next with
  | nil =>
      obtain ⟨b, rfl, -⟩ := hrow
      exact ⟨next, rfl, h⟩
  | cons p pattern ih =>
      obtain ⟨b, rest, rfl, hb, hrest⟩ := hrow
      refine ⟨next, _, rfl, h, ih hrest ?_⟩
      have hhead := hrest.head
      by_cases hpercent : p = '%'
      · subst hpercent
        rw [if_pos rfl, Bool.or_eq_true, h, hhead, describes_percent]
      · rw [if_neg hpercent]
        by_cases hunderscore : p = '_'
        · subst hunderscore
          rw [if_pos rfl, hb, describes_underscore]
        · rw [if_neg hunderscore, Bool.and_eq_true, hb, likeCharsEqual_iff,
            describes_letter hpercent hunderscore]

/-- The rows of a value, one character after the other. -/
theorem foldl_isRow (rest : List Char) (hrow : IsRow value [] pattern row) :
    IsRow (value ++ rest) [] pattern (rest.foldl (fun row c => likeNext c false pattern row) row) := by
  induction rest generalizing value row with
  | nil => rwa [List.append_nil]
  | cons c rest ih =>
      have hnext : IsRow (value ++ [c]) [] pattern (likeNext c false pattern row) :=
        likeNext_isRow hrow (by simp [describes_nil])
      have hrows := ih hnext
      rwa [List.append_assoc, List.singleton_append] at hrows

end Rows

/-- `sql_like` returns True exactly when the pattern describes the value. -/
theorem sqlLike_iff (value pattern : String) :
    sqlLike value pattern = true ↔ Describes pattern.toList value.toList := by
  have hstart : IsRow [] [] pattern.toList (likeStart true pattern.toList) :=
    likeStart_isRow (by simp [describes_nil])
  have hrow := foldl_isRow value.toList hstart
  rw [List.nil_append] at hrow
  exact hrow.last

example : sqlLike "ABC" "a%_" = true := by decide

end QuillDb
