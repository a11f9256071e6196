/-
  Sql/Scan.lean --- one round of the scanner reads one piece.

  Source: `quilldb/sql/tokenizer.py`.

  What a round reads is a piece of the lexical grammar, and every piece is read whole,
  except for a number that `int` or `float` refuses.
-/
import QuillDb.Sql.Tokenizer

set_option autoImplicit false

namespace QuillDb

namespace Tokenizer

/-! ## Runs of characters -/

section Runs

variable {p : Char → Bool} {text after : List Char}

theorem starts_cons {c : Char} {rest : List Char} : Starts p (c :: rest) ↔ p c = true := by
  rw [Starts, List.head?_cons, Option.any_some]

theorem not_starts_nil : ¬ Starts p [] := Bool.false_ne_true

theorem takeWhile_run (htext : ∀ c ∈ text, p c = true) (hafter : ¬ Starts p after) :
    (text ++ after).takeWhile p = text := by
  rw [List.takeWhile_append_of_pos htext]
  cases after with
  | nil => exact List.append_nil text
  | cons c rest =>
      rw [starts_cons] at hafter
      rw [List.takeWhile_cons_of_neg hafter, List.append_nil]

theorem drop_front {front : List Char} (h : text = front ++ after) : text.drop front.length = after :=
  (congrArg (List.drop front.length) h).trans List.drop_left

theorem take_front {front : List Char} (h : text = front ++ after) : text.take front.length = front :=
  (congrArg (List.take front.length) h).trans List.take_left

/-- The run at the front of a text, and what is behind it. -/
theorem exists_run (p : Char → Bool) (text : List Char) :
    ∃ after, text = text.takeWhile p ++ after ∧ (∀ c ∈ text.takeWhile p, p c = true) ∧ ¬ Starts p after := by
  induction text with
  | nil => exact ⟨[], rfl, fun _ hc => (nomatch hc), not_starts_nil⟩
  | cons c rest ih =>
      by_cases hc : p c = true
      · obtain ⟨after, hrest, hall, hafter⟩ := ih
        rw [List.takeWhile_cons_of_pos hc]
        exact ⟨after, congrArg (c :: ·) hrest, List.forall_mem_cons.mpr ⟨hc, hall⟩, hafter⟩
      · rw [List.takeWhile_cons_of_neg hc]
        exact ⟨c :: rest, rfl, fun _ hc => (nomatch hc), fun h => hc (starts_cons.mp h)⟩

end Runs

/-! ## Numbers -/

section Numbers

variable {py : PyText} {rest whole fraction exponent after sql : List Char} {start : Nat}

theorem not_isdigit_ascii {c : Char} (h : c.toNat < 128) (h' : c.isDigit = false) : ¬ py.isdigit c = true := by
  rw [py.isdigit_ascii h, h']
  exact Bool.false_ne_true

theorem scanFraction_of (h : Fraction py fraction after) : scanFraction py (fraction ++ after) = fraction := by
  cases h with
  | none h =>
      cases after with
      | nil => rfl
      | cons c rest =>
          rw [List.nil_append, scanFraction]
          rintro rest' hrest
          cases hrest
          exact h rfl
  | point hdigits hend => rw [List.cons_append, scanFraction, takeWhile_run hdigits hend]

theorem scanFraction_spec (rest : List Char) :
    ∃ after, rest = scanFraction py rest ++ after ∧ Fraction py (scanFraction py rest) after := by
  by_cases hpoint : rest.head? = some '.'
  · obtain ⟨tail, rfl⟩ : ∃ tail, rest = '.' :: tail := List.head?_eq_some_iff.mp hpoint
    obtain ⟨after, hsplit, hall, hend⟩ := exists_run py.isdigit tail
    exact ⟨after, congrArg ('.' :: ·) hsplit, .point hall hend⟩
  · have hnone : Fraction py [] rest := .none hpoint
    have hscan : scanFraction py rest = [] := scanFraction_of hnone
    rw [hscan]
    exact ⟨rest, rfl, hnone⟩

theorem scanSign_of {sign : List Char} (hsign : sign = [] ∨ sign = ['+'] ∨ sign = ['-'])
    (hplus : rest.head? ≠ some '+') (hminus : rest.head? ≠ some '-') : scanSign (sign ++ rest) = sign := by
  rcases hsign with rfl | rfl | rfl
  · cases rest with
    | nil => rfl
    | cons c tail =>
        rw [List.nil_append, scanSign]
        · rintro rest' hrest
          cases hrest
          exact hplus rfl
        · rintro rest' hrest
          cases hrest
          exact hminus rfl
  · rfl
  · rfl

theorem scanSign_spec (rest : List Char) :
    (∃ after, rest = scanSign rest ++ after) ∧
      (scanSign rest = [] ∨ scanSign rest = ['+'] ∨ scanSign rest = ['-']) := by
  unfold scanSign
  split
  · exact ⟨⟨_, rfl⟩, .inr (.inl rfl)⟩
  · exact ⟨⟨_, rfl⟩, .inr (.inr rfl)⟩
  · exact ⟨⟨_, rfl⟩, .inl rfl⟩

theorem scanExponent_of (h : Exponent py exponent after) :
    scanExponent py (exponent ++ after) = some exponent := by
  cases h with
  | none h h' =>
      cases after with
      | nil => rfl
      | cons c rest =>
          rw [List.nil_append, scanExponent, if_neg]
          rintro (rfl | rfl)
          · exact h rfl
          · exact h' rfl
  | @marker e sign digits _ he hsign hne hdigits hend =>
      have hhead : ∀ c : Char, py.isdigit c = false → (digits ++ after).head? ≠ some c := by
        intro c hc hhead
        obtain ⟨d, ds, rfl⟩ := List.exists_cons_of_ne_nil hne
        obtain rfl := Option.some.inj hhead
        rw [hdigits d (List.mem_cons_self ..)] at hc
        cases hc
      have hplus := hhead '+' ((py.isdigit_ascii (by decide)).trans (by decide))
      have hminus := hhead '-' ((py.isdigit_ascii (by decide)).trans (by decide))
      rw [List.cons_append, scanExponent, if_pos he, List.append_assoc, scanSign_of hsign hplus hminus]
      simp only
      rw [List.drop_left, takeWhile_run hdigits hend, if_neg hne]

theorem scanExponent_spec (h : scanExponent py rest = some exponent) :
    ∃ after, rest = exponent ++ after ∧ Exponent py exponent after := by
  cases rest with
  | nil =>
      cases h
      exact ⟨[], rfl, .none nofun nofun⟩
  | cons c tail =>
      rw [scanExponent] at h
      split at h
      · rename_i he
        obtain ⟨⟨behind, hsplit⟩, hsign⟩ := scanSign_spec tail
        have hdrop := drop_front hsplit
        obtain ⟨after, hrun, hall, hend⟩ := exists_run py.isdigit behind
        simp only [hdrop] at h
        split at h
        · cases h
        · rename_i hne
          cases h
          refine ⟨after, ?_, .marker he hsign hne hall hend⟩
          rw [List.cons_append, List.append_assoc, ← hrun, ← hsplit]
      · rename_i he
        cases h
        refine ⟨c :: tail, rfl, .none (fun h => he (.inl (Option.some.inj h))) fun h => he (.inr ?_)⟩
        exact Option.some.inj h

theorem startsNumber_of (h : Number py whole fraction exponent after) :
    startsNumber py (whole ++ (fraction ++ exponent) ++ after) = true := by
  rcases h.starts with hne | ⟨d, digits, rfl⟩
  · obtain ⟨d, ds, rfl⟩ := List.exists_cons_of_ne_nil hne
    rw [List.cons_append, List.cons_append, startsNumber, h.digits d (List.mem_cons_self ..), Bool.true_or]
  · cases whole with
    | cons d ds =>
        rw [List.cons_append, List.cons_append, startsNumber, h.digits d (List.mem_cons_self ..), Bool.true_or]
    | nil =>
        have hdigit : py.isdigit d = true := by
          cases h.fraction with
          | point hdigits _ => exact hdigits d (List.mem_cons_self ..)
        rw [List.nil_append, List.cons_append, List.cons_append, List.cons_append, List.cons_append,
          startsNumber]
        simp [hdigit]

theorem scanNumber_of (h : Number py whole fraction exponent after) :
    scanNumber py sql start (whole ++ (fraction ++ exponent) ++ after) =
      if fraction = [] ∧ exponent = [] then do
        let value ← py.int (whole ++ fraction ++ exponent)
        return (.int value, (whole ++ fraction ++ exponent).length)
      else do
        let value ← py.toFloat (whole ++ fraction ++ exponent)
        return (.real value, (whole ++ fraction ++ exponent).length) := by
  have hwhole : (whole ++ (fraction ++ exponent) ++ after).takeWhile py.isdigit = whole := by
    rw [List.append_assoc, List.append_assoc]
    exact takeWhile_run h.digits h.longest
  have hfraction : (whole ++ (fraction ++ exponent) ++ after).drop whole.length =
      fraction ++ (exponent ++ after) := by
    rw [List.append_assoc, List.append_assoc, List.drop_left]
  have hexponent : (whole ++ (fraction ++ exponent) ++ after).drop (whole ++ fraction).length =
      exponent ++ after := by
    rw [List.append_assoc, List.append_assoc, ← List.append_assoc whole, List.drop_left]
  rw [scanNumber, hwhole]
  simp only
  rw [hfraction, scanFraction_of h.fraction, hexponent, scanExponent_of h.exponent]

/-- A number without a whole part has a digit behind its point. -/
theorem point_of_startsNumber (h : startsNumber py rest = true) (hdigit : ¬ Starts py.isdigit rest) :
    ∃ d digits, scanFraction py rest = '.' :: d :: digits := by
  cases rest with
  | nil => cases h
  | cons c tail =>
      rw [starts_cons] at hdigit
      rw [startsNumber, Bool.or_eq_true, Bool.and_eq_true, decide_eq_true_eq] at h
      obtain ⟨rfl, hhead⟩ := h.resolve_left hdigit
      cases tail with
      | nil => cases hhead
      | cons d digits =>
          rw [List.head?_cons, Option.any_some] at hhead
          rw [scanFraction, List.takeWhile_cons_of_pos hhead]
          exact ⟨d, _, rfl⟩

/-- At a digit, or a point before one, there is a number or a bad exponent. -/
theorem scanNumber_cases (h : startsNumber py rest = true) :
    (∃ position, scanNumber py sql start rest = .error (syntaxError sql "malformed exponent" position)) ∨
      ∃ whole fraction exponent after, rest = whole ++ (fraction ++ exponent) ++ after ∧
        Number py whole fraction exponent after := by
  obtain ⟨behind, hwhole, hdigits, hlongest⟩ := exists_run py.isdigit rest
  obtain ⟨behind', hfraction, hfrac⟩ := @scanFraction_spec py behind
  generalize hw : rest.takeWhile py.isdigit = whole at hwhole hdigits
  generalize hf : scanFraction py behind = fraction at hfraction hfrac
  have hdrop : rest.drop whole.length = behind := drop_front hwhole
  have hdrop' : rest.drop (whole ++ fraction).length = behind' := by
    refine drop_front ?_
    rw [hwhole, hfraction, List.append_assoc]
  cases hexp : scanExponent py behind' with
  | none =>
      left
      rw [scanNumber, hw]
      simp only
      rw [hdrop, hf, hdrop', hexp]
      exact ⟨_, rfl⟩
  | some exponent =>
      obtain ⟨after, hafter, hexponent⟩ := scanExponent_spec hexp
      subst hafter hfraction
      refine .inr ⟨whole, fraction, exponent, after, ?_, ?_, hdigits, hlongest, hfrac, hexponent⟩
      · rw [hwhole, List.append_assoc, List.append_assoc]
      · by_cases hne : whole = []
        · subst hne
          rw [hwhole, List.nil_append] at h
          obtain ⟨d, digits, hpoint⟩ := point_of_startsNumber h hlongest
          exact .inr ⟨d, digits, hf.symm.trans hpoint⟩
        · exact .inl hne

end Numbers

/-! ## Conversions -/

section Conversions

variable {py : PyText} {whole fraction exponent after sql : List Char} {start : Nat}

theorem toFloat_cases (lexeme : List Char) :
    (∀ c ∈ lexeme, py.isdigit c = true → py.isdecimal c = true) ∧ (∃ bits, py.toFloat lexeme = .ok bits) ∨
      ¬ (∀ c ∈ lexeme, py.isdigit c = true → py.isdecimal c = true) ∧
        ∃ message, py.toFloat lexeme = .error (.valueError message) := by
  unfold PyText.toFloat
  by_cases hbad : (lexeme.any fun c => py.isdigit c && !py.isdecimal c) = true
  · rw [if_pos hbad]
    refine .inr ⟨fun hall => ?_, _, rfl⟩
    obtain ⟨c, hc, hdigit⟩ := List.any_eq_true.mp hbad
    rw [Bool.and_eq_true, Bool.not_eq_true'] at hdigit
    rw [hall c hc hdigit.1] at hdigit
    cases hdigit.2
  · rw [if_neg hbad]
    refine .inl ⟨fun c hc hdigit => ?_, _, rfl⟩
    by_contra hdecimal
    refine hbad (List.any_eq_true.mpr ⟨c, hc, ?_⟩)
    rw [hdigit, Bool.not_eq_true _ |>.mp hdecimal]
    rfl

theorem int_cases (whole : List Char) :
    (∀ c ∈ whole, py.isdecimal c = true) ∧ whole.length ≤ PyText.intMaxStrDigits ∧
        (∃ n, py.int whole = .ok n) ∨
      ¬ ((∀ c ∈ whole, py.isdecimal c = true) ∧ whole.length ≤ PyText.intMaxStrDigits) ∧
        ∃ message, py.int whole = .error (.valueError message) := by
  unfold PyText.int
  by_cases hdecimal : whole.all py.isdecimal = true
  · have hall := List.all_eq_true.mp hdecimal
    rw [if_neg (not_not.mpr hdecimal)]
    by_cases hlong : PyText.intMaxStrDigits < whole.length
    · rw [if_pos hlong]
      exact .inr ⟨fun h => Nat.not_lt.mpr h.2 hlong, _, rfl⟩
    · rw [if_neg hlong]
      exact .inl ⟨hall, Nat.not_lt.mp hlong, _, rfl⟩
  · rw [if_pos hdecimal]
    exact .inr ⟨fun h => hdecimal (List.all_eq_true.mpr h.1), _, rfl⟩

/-- A number gives a value exactly when it converts. -/
theorem scanNumber_converts (h : Number py whole fraction exponent after) :
    Converts py whole fraction exponent ∧ (∃ value, scanNumber py sql start
          (whole ++ (fraction ++ exponent) ++ after) =
            .ok (value, (whole ++ (fraction ++ exponent)).length)) ∨
      ¬ Converts py whole fraction exponent ∧ ∃ message, scanNumber py sql start
        (whole ++ (fraction ++ exponent) ++ after) = .error (.valueError message) := by
  rw [scanNumber_of h, List.append_assoc]
  by_cases hint : fraction = [] ∧ exponent = []
  · obtain ⟨rfl, rfl⟩ := hint
    rw [if_pos ⟨rfl, rfl⟩, Converts]
    simp only [List.append_nil]
    rcases @int_cases py whole with ⟨hall, hlen, n, hn⟩ | ⟨hnot, message, hm⟩
    · rw [hn]
      exact .inl ⟨⟨fun c hc _ => hall c hc, fun _ _ => hlen⟩, _, rfl⟩
    · rw [hm]
      refine .inr ⟨fun hconv => hnot ⟨fun c hc => ?_, hconv.2 trivial trivial⟩, message, rfl⟩
      exact hconv.1 c hc (h.digits c hc)
  · rw [if_neg hint, Converts]
    rcases @toFloat_cases py (whole ++ (fraction ++ exponent)) with ⟨hall, bits, hbits⟩ | ⟨hnot, message, hm⟩
    · rw [hbits]
      exact .inl ⟨⟨hall, fun hf he => (hint ⟨hf, he⟩).elim⟩, _, rfl⟩
    · rw [hm]
      exact .inr ⟨fun hconv => hnot hconv.1, message, rfl⟩

end Conversions

/-! ## Strings and comments -/

section Strings

variable {rest contents body after : List Char} {length : Nat}

theorem doubled_cons (c : Char) (contents : List Char) :
    doubled (c :: contents) = (if c = '\'' then ['\'', '\''] else [c]) ++ doubled contents := rfl

theorem scanString_of (hend : after.head? ≠ some '\'') :
    scanString (doubled contents ++ '\'' :: after) = some (contents, (doubled contents).length + 1) := by
  induction contents with
  | nil =>
      cases after with
      | nil => rfl
      | cons d after =>
          have hd : d ≠ '\'' := fun h => hend (congrArg some h)
          rw [doubled, List.flatMap_nil, List.nil_append, scanString]
          · rfl
          · rintro rest hrest
            cases hrest
            exact hd rfl
  | cons c contents ih =>
      rw [doubled_cons]
      by_cases hc : c = '\''
      · rw [if_pos hc, hc]
        simp only [List.cons_append, List.nil_append]
        rw [scanString, ih]
        rfl
      · rw [if_neg hc, List.singleton_append, List.cons_append, scanString]
        · rw [ih]
          rfl
        · rintro rest h
          exact fun _ => hc h
        · exact fun h => hc h

theorem scanString_spec (h : scanString rest = some (contents, length)) :
    ∃ after, rest = doubled contents ++ '\'' :: after ∧ length = (doubled contents).length + 1 ∧
      after.head? ≠ some '\'' := by
  fun_induction scanString rest generalizing contents length with
  | case1 => cases h
  | case2 rest ih =>
      obtain ⟨⟨contents', length'⟩, hrest, hpair⟩ := Option.map_eq_some_iff.mp h
      obtain ⟨rfl, rfl⟩ := Prod.mk.inj hpair
      obtain ⟨after, rfl, hlength, hend⟩ := ih hrest
      refine ⟨after, rfl, ?_, hend⟩
      rw [doubled_cons, if_pos rfl, List.length_append, hlength]
      exact Nat.add_comm ..
  | case3 rest hnot =>
      obtain ⟨rfl, rfl⟩ := Prod.mk.inj (Option.some.inj h)
      refine ⟨rest, rfl, rfl, fun hhead => ?_⟩
      obtain ⟨tail, rfl⟩ := List.head?_eq_some_iff.mp hhead
      exact hnot tail rfl
  | case4 c rest hnot hne ih =>
      obtain ⟨⟨contents', length'⟩, hrest, hpair⟩ := Option.map_eq_some_iff.mp h
      obtain ⟨rfl, rfl⟩ := Prod.mk.inj hpair
      obtain ⟨after, rfl, hlength, hend⟩ := ih hrest
      have hc : c ≠ '\'' := fun hc => hne hc
      refine ⟨after, ?_, ?_, hend⟩
      · rw [doubled_cons, if_neg hc]
        rfl
      · rw [doubled_cons, if_neg hc, List.length_append, hlength]
        exact Nat.add_comm ..

theorem infix_close_cons {c : Char} :
    ['*', '/'] <:+: c :: body ↔ c = '*' ∧ body.head? = some '/' ∨ ['*', '/'] <:+: body := by
  rw [List.infix_cons_iff, List.prefix_cons_iff]
  refine or_congr ⟨?_, ?_⟩ Iff.rfl
  · rintro (h | ⟨t, h, ht⟩)
    · cases h
    · obtain ⟨rfl, rfl⟩ := List.cons.inj h
      obtain ⟨more, rfl⟩ := ht
      exact ⟨rfl, rfl⟩
  · rintro ⟨rfl, hhead⟩
    obtain ⟨tail, rfl⟩ := List.head?_eq_some_iff.mp hhead
    exact .inr ⟨['/'], rfl, tail, rfl⟩

theorem findClose_of (hbody : ¬ ['*', '/'] <:+: body) :
    findClose (body ++ '*' :: '/' :: after) = some body.length := by
  induction body with
  | nil => rfl
  | cons c body ih =>
      rw [infix_close_cons, not_or] at hbody
      rw [List.cons_append, findClose, if_neg, ih hbody.2]
      · rfl
      · rintro ⟨hc, hhead⟩
        cases body with
        | nil => cases hhead
        | cons d body => exact hbody.1 ⟨hc, hhead⟩

theorem findClose_spec (h : findClose rest = some length) :
    ∃ body after, rest = body ++ '*' :: '/' :: after ∧ body.length = length ∧ ¬ ['*', '/'] <:+: body := by
  induction rest generalizing length with
  | nil => cases h
  | cons c rest ih =>
      rw [findClose] at h
      split at h
      · rename_i hclose
        obtain ⟨rfl, hhead⟩ := hclose
        obtain ⟨after, rfl⟩ := List.head?_eq_some_iff.mp hhead
        cases h
        exact ⟨[], after, rfl, rfl, by decide⟩
      · rename_i hopen
        obtain ⟨length', hrest, rfl⟩ := Option.map_eq_some_iff.mp h
        obtain ⟨body, after, rfl, hlength, hbody⟩ := ih hrest
        refine ⟨c :: body, after, rfl, congrArg (· + 1) hlength, ?_⟩
        rw [infix_close_cons, not_or]
        refine ⟨fun hclose => hopen ⟨hclose.1, ?_⟩, hbody⟩
        obtain ⟨tail, rfl⟩ := List.head?_eq_some_iff.mp hclose.2
        rfl

end Strings

/-! ## One round -/

/-- The token of a text: a string has its contents as its value. -/
structure IsToken (i : Nat) (text : List Char) (t : Token) : Prop where
  lexeme : t.lexeme = String.ofList text
  position : t.position = i
  notEof : t.type ≠ .eof
  string : t.type = .string → ∃ contents, text = '\'' :: (doubled contents ++ ['\'']) ∧
    t.value = some (.text (String.ofList contents))

section Round

variable {py : PyText} {sql rest text after : List Char} {i length : Nat} {c : Char} {t : Option Token}

theorem entry_mem {α : Type} [DecidableEq α] {table : List (α × TokenType)} {key : α} {type : TokenType}
    (h : entry table key = some type) : (key, type) ∈ table := by
  obtain ⟨p, hfind, rfl⟩ := Option.map_eq_some_iff.mp h
  have hkey : p.1 = key := by simpa using List.find?_some hfind
  rw [← hkey]
  exact List.mem_of_find?_eq_some hfind

/-- No table names the end or a string. -/
theorem tables_plain : (∀ p ∈ twoCharOperators, p.2 ≠ .eof ∧ p.2 ≠ .string) ∧
    (∀ p ∈ oneCharOperators, p.2 ≠ .eof ∧ p.2 ≠ .string) ∧
    ∀ p ∈ keywords, p.2 ≠ .eof ∧ p.2 ≠ .string := by
  decide

theorem isToken_plain {type : TokenType} {value : Option Value} (h : type ≠ .eof ∧ type ≠ .string) :
    IsToken i text ⟨type, String.ofList text, value, i⟩ :=
  ⟨rfl, rfl, h.1, fun hstring => absurd hstring h.2⟩

theorem numberType_plain (value : Value) : numberType value ≠ .eof ∧ numberType value ≠ .string := by
  cases value <;> exact ⟨nofun, nofun⟩

theorem length_two {text : List Char} {type : TokenType} (h : (text, type) ∈ twoCharOperators) :
    text.length = 2 := by
  have hall : ∀ p ∈ twoCharOperators, p.1.length = 2 := by decide
  exact hall _ h

/-- A comment that goes to the end of its line. -/
theorem line_comment (tail : List Char) : ∃ text after, '-' :: '-' :: tail = text ++ after ∧
    text.length = (('-' :: '-' :: tail).takeWhile (· ≠ '\n')).length ∧ text ≠ [] ∧ Blank text after := by
  obtain ⟨after, hsplit, hall, hend⟩ := exists_run (· ≠ '\n') ('-' :: '-' :: tail)
  have hrun : ('-' :: '-' :: tail).takeWhile (· ≠ '\n') = '-' :: '-' :: tail.takeWhile (· ≠ '\n') := rfl
  rw [hrun] at hsplit hall ⊢
  refine ⟨_, after, hsplit, rfl, nofun, .line (fun hmem => ?_) ?_⟩
  · have hne := hall '\n' (List.mem_cons_of_mem _ (List.mem_cons_of_mem _ hmem))
    exact of_decide_eq_true hne rfl
  · cases after with
    | nil => exact .inl rfl
    | cons d after =>
        rw [starts_cons, decide_eq_true_eq, not_not] at hend
        exact .inr (congrArg some hend)

/-- A number that is read is one of the grammar. -/
theorem number_read {value : Value} (hstart : startsNumber py rest = true)
    (hscan : scanNumber py sql i rest = .ok (value, length)) :
    ∃ text after, rest = text ++ after ∧ text.length = length ∧ text ≠ [] ∧ Lexeme py text after := by
  rcases @scanNumber_cases py rest sql i hstart with ⟨position, herror⟩ |
      ⟨whole, fraction, exponent, after, rfl, hnumber⟩
  · rw [hscan] at herror
    cases herror
  · rcases @scanNumber_converts py whole fraction exponent after sql i hnumber with
      ⟨-, value', hvalue⟩ | ⟨-, message, herror⟩
    · obtain ⟨rfl, rfl⟩ := Prod.mk.inj (Except.ok.inj (hscan.symm.trans hvalue))
      refine ⟨_, after, rfl, rfl, fun hnil => ?_, .number hnumber⟩
      obtain ⟨hwhole, hmore⟩ := List.append_eq_nil_iff.mp hnil
      rcases hnumber.starts with hne | ⟨d, digits, hpoint⟩
      · exact hne hwhole
      · rw [hpoint] at hmore
        cases hmore
    · rw [hscan] at herror
      cases herror

/-- A comment that is closed. -/
theorem block_comment {tail : List Char} (hclose : findClose tail = some length) :
    ∃ text after, '/' :: '*' :: tail = text ++ after ∧ text.length = length + 4 ∧ text ≠ [] ∧ Blank text after := by
  obtain ⟨body, after, rfl, rfl, hbody⟩ := findClose_spec hclose
  refine ⟨'/' :: '*' :: (body ++ ['*', '/']), after, ?_, ?_, nofun, .block hbody⟩
  · simp only [List.cons_append, List.append_assoc, List.nil_append]
  · simp only [List.length_cons, List.length_append, List.length_nil]

/-- A string that is read is its contents between quotes, with the quotes doubled. -/
theorem string_read {contents : List Char} (hscan : scanString rest = some (contents, length)) :
    ∃ after, '\'' :: rest = '\'' :: (doubled contents ++ ['\'']) ++ after ∧
      ('\'' :: (doubled contents ++ ['\''])).length = length + 1 ∧
      Lexeme py ('\'' :: (doubled contents ++ ['\''])) after := by
  obtain ⟨after, rfl, rfl, hend⟩ := scanString_spec hscan
  refine ⟨after, ?_, ?_, .string hend⟩
  · rw [List.cons_append, List.append_assoc, List.singleton_append]
  · rw [List.length_cons, List.length_append, List.length_singleton]

/-- An operator that is read is the longest one. -/
theorem scanOperator_ok (hline : ¬ (c = '-' ∧ rest.head? = some '-')) (hblock : ¬ (c = '/' ∧ rest.head? = some '*'))
    (hstart : ¬ startsNumber py (c :: rest) = true) (h : scanOperator py sql i c rest = .ok (t, length)) :
    ∃ text after, c :: rest = text ++ after ∧ text.length = length ∧ text ≠ [] ∧
      ∃ token, t = some token ∧ Lexeme py text after ∧ IsToken i text token := by
  unfold scanOperator at h
  simp only at h
  split at h
  · rename_i type htwo
    cases h
    have hmem := entry_mem htwo
    exact ⟨(c :: rest).take 2, (c :: rest).drop 2, (List.take_append_drop ..).symm, length_two hmem, nofun,
      _, rfl, .twoChar htwo, isToken_plain (tables_plain.1 _ hmem)⟩
  · rename_i htwo
    split at h
    · rename_i type hone
      cases h
      refine ⟨[c], rest, rfl, rfl, nofun, _, rfl, .oneChar hone htwo ?_ ?_ ?_,
        isToken_plain (tables_plain.2.1 _ (entry_mem hone))⟩
      · exact fun hc hhead => hline ⟨hc, hhead⟩
      · exact fun hc hhead => hblock ⟨hc, hhead⟩
      · intro hc hhead
        refine hstart ?_
        rw [startsNumber, hc, Bool.or_eq_true, Bool.and_eq_true]
        exact .inr ⟨rfl, hhead⟩
    · cases h

/-- What is neither blank nor a string is a token. -/
theorem scanPlain_ok (hline : ¬ (c = '-' ∧ rest.head? = some '-')) (hblock : ¬ (c = '/' ∧ rest.head? = some '*'))
    (h : scanPlain py sql i c rest = .ok (t, length)) :
    ∃ text after, c :: rest = text ++ after ∧ text.length = length ∧ text ≠ [] ∧
      ∃ token, t = some token ∧ Lexeme py text after ∧ IsToken i text token := by
  unfold scanPlain at h
  split at h
  · rename_i hstart
    unfold scanNumberToken at h
    obtain ⟨⟨value, length⟩, hscan, h⟩ := Fallible.bind_eq_ok h
    cases h
    obtain ⟨text, after, hsplit, rfl, hne, hnumber⟩ := number_read hstart hscan
    rw [take_front hsplit]
    exact ⟨text, after, hsplit, rfl, hne, _, rfl, hnumber, isToken_plain (numberType_plain value)⟩
  rename_i hstart
  split at h
  · rename_i hword
    obtain ⟨rfl, rfl⟩ := Prod.mk.inj (Except.ok.inj h)
    obtain ⟨after, hsplit, hall, hend⟩ := exists_run (isWordChar py) rest
    refine ⟨_, after, congrArg (c :: ·) hsplit, rfl, nofun, _, rfl, .word hword hall hend, isToken_plain ?_⟩
    cases hentry : entry keywords (py.casefold (String.ofList (c :: rest.takeWhile (isWordChar py)))) with
    | none => exact ⟨nofun, nofun⟩
    | some type => exact tables_plain.2.2 _ (entry_mem hentry)
  split at h
  · rename_i hparameter
    cases h
    subst hparameter
    exact ⟨['?'], rest, rfl, rfl, nofun, _, rfl, .parameter, rfl, rfl, nofun, nofun⟩
  · exact scanOperator_ok hline hblock hstart h

/-- A round reads a piece of the grammar, and a token where it is one. -/
theorem scanToken_ok (h : scanToken py sql i c rest = .ok (t, length)) :
    ∃ text after, c :: rest = text ++ after ∧ text.length = length ∧ text ≠ [] ∧
      (t = none ∧ Blank text after ∨ ∃ token, t = some token ∧ Lexeme py text after ∧ IsToken i text token) := by
  unfold scanToken at h
  split at h
  · rename_i hblank
    cases h
    exact ⟨[c], rest, rfl, rfl, nofun, .inl ⟨rfl, .space hblank⟩⟩
  split at h
  · rename_i hline
    cases h
    obtain ⟨rfl, hhead⟩ := hline
    obtain ⟨tail, rfl⟩ := List.head?_eq_some_iff.mp hhead
    obtain ⟨text, after, hsplit, hlength, hne, hcomment⟩ := line_comment tail
    exact ⟨text, after, hsplit, hlength, hne, .inl ⟨rfl, hcomment⟩⟩
  rename_i hline
  split at h
  · rename_i hblock
    obtain ⟨rfl, hhead⟩ := hblock
    obtain ⟨tail, rfl⟩ := List.head?_eq_some_iff.mp hhead
    split at h
    · cases h
    · rename_i length hclose
      cases h
      obtain ⟨text, after, hsplit, hlength, hne, hcomment⟩ := block_comment hclose
      exact ⟨text, after, hsplit, hlength, hne, .inl ⟨rfl, hcomment⟩⟩
  rename_i hblock
  split at h
  · rename_i hquote
    subst hquote
    split at h
    · cases h
    · rename_i contents length hscan
      cases h
      obtain ⟨after, hsplit, hlength, hlexeme⟩ := string_read hscan
      have htake := take_front hsplit
      rw [hlength] at htake
      rw [htake]
      exact ⟨_, after, hsplit, hlength, nofun, .inr ⟨_, rfl, hlexeme, rfl, rfl, nofun, fun _ => ⟨contents, rfl, rfl⟩⟩⟩
  · obtain ⟨text, after, hsplit, hlength, hne, htoken⟩ := scanPlain_ok hline hblock h
    exact ⟨text, after, hsplit, hlength, hne, .inr htoken⟩

/-- A round that raises finds a syntax error, or a number that does not convert. -/
theorem scanToken_error {e : DbError} (h : scanToken py sql i c rest = .error e) :
    (∃ message, e = .sqlSyntax message) ∨ ∃ whole fraction exponent after,
      c :: rest = whole ++ (fraction ++ exponent) ++ after ∧ Number py whole fraction exponent after ∧
        ¬ Converts py whole fraction exponent := by
  unfold scanToken at h
  split at h
  · cases h
  split at h
  · cases h
  split at h
  · split at h
    · cases h
      exact .inl ⟨_, rfl⟩
    · cases h
  split at h
  · split at h
    · cases h
      exact .inl ⟨_, rfl⟩
    · cases h
  unfold scanPlain at h
  split at h
  · rename_i hstart
    rw [scanNumberToken] at h
    rcases @scanNumber_cases py (c :: rest) sql i hstart with ⟨position, herror⟩ |
        ⟨whole, fraction, exponent, after, hsplit, hnumber⟩
    · rw [herror] at h
      cases h
      exact .inl ⟨_, rfl⟩
    · rcases @scanNumber_converts py whole fraction exponent after sql i hnumber with
        ⟨-, value, hvalue⟩ | ⟨hnot, -⟩
      · rw [hsplit, hvalue] at h
        cases h
      · exact .inr ⟨whole, fraction, exponent, after, hsplit, hnumber, hnot⟩
  split at h
  · cases h
  split at h
  · cases h
  unfold scanOperator at h
  simp only at h
  split at h
  · cases h
  · split at h
    · cases h
    · cases h
      exact .inl ⟨_, rfl⟩

/-! ## Every piece is read -/

/-- No blank, no quote and no start of a comment. -/
def Plain (c : Char) (after : List Char) : Prop :=
  isBlank c = false ∧ ¬ (c = '-' ∧ after.head? = some '-') ∧ ¬ (c = '/' ∧ after.head? = some '*') ∧ c ≠ '\''

/-- The characters of blanks, quotes and comments. -/
def specials : List Char := [' ', '\t', '\r', '\n', '-', '/', '\'']

theorem specials_ascii : ∀ k ∈ specials, k.toNat < 128 ∧ k.isDigit = false ∧ k.isAlpha = false := by
  simp only [specials, List.forall_mem_cons]
  refine ⟨by decide, by decide, by decide, by decide, by decide, by decide, by decide, ?_⟩
  exact fun _ hk => (nomatch hk)

theorem plain_of_not_mem (hc : c ∉ specials) : Plain c rest := by
  simp only [specials, List.mem_cons, List.not_mem_nil, or_false, not_or] at hc
  obtain ⟨h1, h2, h3, h4, h5, h6, h7⟩ := hc
  refine ⟨?_, fun h => h5 h.1, fun h => h6 h.1, h7⟩
  simp [isBlank, h1, h2, h3, h4]

theorem isalpha_ne (h : py.isalpha c = true) {k : Char} (hk : k.toNat < 128) (hk' : k.isAlpha = false) :
    c ≠ k := by
  rintro rfl
  rw [PyText.isalpha, py.letter_ascii c hk, hk'] at h
  cases h

theorem isdigit_ne (h : py.isdigit c = true) {k : Char} (hk : k.toNat < 128) (hk' : k.isDigit = false) :
    c ≠ k := by
  rintro rfl
  exact not_isdigit_ascii hk hk' h

theorem scanToken_plain (hplain : Plain c rest) : scanToken py sql i c rest = scanPlain py sql i c rest := by
  obtain ⟨hblank, hline, hblock, hquote⟩ := hplain
  rw [scanToken, if_neg (Bool.not_eq_true _ |>.mpr hblank), if_neg hline, if_neg hblock, if_neg hquote]

theorem cons_split {d : Char} (h : c :: rest = d :: text ++ after) : c = d ∧ rest = text ++ after :=
  List.cons.inj h

theorem blank_read (h : Blank text after) (hsplit : c :: rest = text ++ after) :
    scanToken py sql i c rest = .ok (none, text.length) := by
  cases h with
  | space hblank =>
      obtain ⟨rfl, -⟩ := cons_split hsplit
      rw [scanToken, if_pos hblank]
      rfl
  | @line body _ hbody hend =>
      obtain ⟨rfl, hrest⟩ := cons_split hsplit
      have hall : ∀ d ∈ '-' :: '-' :: body, decide (d ≠ '\n') = true := by
        refine List.forall_mem_cons.mpr ⟨by decide, List.forall_mem_cons.mpr ⟨by decide, fun d hd => ?_⟩⟩
        exact decide_eq_true fun hd' => hbody (hd' ▸ hd)
      have hstop : ¬ Starts (· ≠ '\n') after := by
        rcases hend with hend | hend
        · rw [Starts, hend]
          exact Bool.false_ne_true
        · rw [Starts, hend, Option.any_some]
          decide
      rw [scanToken, if_neg (by decide), if_pos ⟨rfl, by rw [hrest]; rfl⟩, hrest]
      have hrun := takeWhile_run hall hstop
      rw [List.cons_append] at hrun
      exact congrArg (fun run => Except.ok (none, List.length run)) hrun
  | @block body _ hbody =>
      obtain ⟨rfl, hrest⟩ := cons_split hsplit
      have htail : rest.tail = body ++ '*' :: '/' :: after := by
        rw [hrest, List.cons_append, List.tail_cons, List.append_assoc]
        rfl
      rw [scanToken, if_neg (by decide), if_neg fun h => absurd h.1 (by decide),
        if_pos ⟨rfl, by rw [hrest]; rfl⟩, htail, findClose_of hbody]
      simp only [List.length_cons, List.length_append, List.length_nil]

theorem plain_of_number {whole fraction exponent : List Char} (h : Number py whole fraction exponent after)
    (hsplit : c :: rest = whole ++ (fraction ++ exponent) ++ after) : Plain c rest := by
  have hc : py.isdigit c = true ∨ c = '.' := by
    rcases whole with _ | ⟨d, ds⟩
    · obtain ⟨d, digits, rfl⟩ := h.starts.resolve_left fun hne => hne rfl
      exact .inr (cons_split hsplit).1
    · obtain ⟨rfl, -⟩ := cons_split hsplit
      exact .inl (h.digits c (List.mem_cons_self ..))
  refine plain_of_not_mem fun hk => ?_
  rcases hc with hdigit | rfl
  · obtain ⟨hascii, hnot, -⟩ := specials_ascii c hk
    exact isdigit_ne hdigit hascii hnot rfl
  · exact absurd hk (by decide)

/-- A number gives a token exactly when it converts. -/
theorem number_round {whole fraction exponent : List Char} (h : Number py whole fraction exponent after)
    (hsplit : c :: rest = whole ++ (fraction ++ exponent) ++ after) :
    Converts py whole fraction exponent ∧
        (∃ t, scanToken py sql i c rest = .ok (t, (whole ++ (fraction ++ exponent)).length)) ∨
      ¬ Converts py whole fraction exponent ∧
        ∃ message, scanToken py sql i c rest = .error (.valueError message) := by
  rw [scanToken_plain (plain_of_number h hsplit), scanPlain, hsplit, if_pos (startsNumber_of h),
    scanNumberToken]
  rcases @scanNumber_converts py whole fraction exponent after sql i h with
    ⟨hconv, value, hvalue⟩ | ⟨hnot, message, herror⟩
  · rw [hvalue]
    exact .inl ⟨hconv, _, rfl⟩
  · rw [herror]
    exact .inr ⟨hnot, message, rfl⟩

theorem word_read (hfirst : py.isalpha c = true ∨ c = '_') : scanToken py sql i c rest = .ok (scanWord py i c rest) := by
  have hplain : Plain c rest := by
    refine plain_of_not_mem fun hk => ?_
    rcases hfirst with halpha | rfl
    · obtain ⟨hascii, -, hnot⟩ := specials_ascii c hk
      exact isalpha_ne halpha hascii hnot rfl
    · exact absurd hk (by decide)
  have hstart : startsNumber py (c :: rest) = false := by
    rw [startsNumber, Bool.or_eq_false_iff, Bool.and_eq_false_iff, decide_eq_false_iff_not]
    rcases hfirst with halpha | rfl
    · exact ⟨py.not_isdigit_of_isalpha halpha, .inl (isalpha_ne halpha (by decide) (by decide))⟩
    · exact ⟨(py.isdigit_ascii (by decide)).trans (by decide), .inl (by decide)⟩
  rw [scanToken_plain hplain, scanPlain, hstart, if_neg Bool.false_ne_true, if_pos hfirst]

/-- What a character of an operator is not. -/
theorem operator_read (hascii : c.toNat < 128) (hdigit : c.isDigit = false) (halpha : c.isAlpha = false)
    (hnot : c ∉ [' ', '\t', '\r', '\n', '\'', '_', '?'])
    (hline : c = '-' → rest.head? ≠ some '-') (hblock : c = '/' → rest.head? ≠ some '*')
    (hpoint : c = '.' → ¬ Starts py.isdigit rest) : scanToken py sql i c rest = scanOperator py sql i c rest := by
  simp only [List.mem_cons, List.not_mem_nil, or_false, not_or] at hnot
  obtain ⟨h1, h2, h3, h4, h5, h6, h7⟩ := hnot
  have hplain : Plain c rest :=
    ⟨by simp [isBlank, h1, h2, h3, h4], fun h => hline h.1 h.2, fun h => hblock h.1 h.2, h5⟩
  have hstart : ¬ startsNumber py (c :: rest) = true := by
    rw [startsNumber, Bool.or_eq_true, Bool.and_eq_true, decide_eq_true_eq]
    rintro (h | ⟨hc, h⟩)
    · exact not_isdigit_ascii hascii hdigit h
    · exact hpoint hc h
  have hletter : ¬ (py.isalpha c = true ∨ c = '_') := by
    rintro (h | h)
    · exact isalpha_ne h hascii halpha rfl
    · exact h6 h
  rw [scanToken_plain hplain, scanPlain, if_neg hstart, if_neg hletter, if_neg h7]

/-- Every piece is read whole, unless it is a number that does not convert. -/
theorem lexeme_read (h : Lexeme py text after) (hsplit : c :: rest = text ++ after) :
    (∃ t, scanToken py sql i c rest = .ok (t, text.length)) ∨
      ∃ message, scanToken py sql i c rest = .error (.valueError message) := by
  cases h with
  | @string contents _ hend =>
      obtain ⟨rfl, hrest⟩ := cons_split hsplit
      rw [List.append_assoc, List.singleton_append] at hrest
      left
      rw [scanToken, if_neg (by decide), if_neg fun h => absurd h.1 (by decide),
        if_neg fun h => absurd h.1 (by decide), if_pos rfl, hrest, scanString_of hend, List.length_cons,
        List.length_append, List.length_singleton]
      exact ⟨_, rfl⟩
  | @number whole fraction exponent _ hnumber =>
      rcases @number_round py sql _ _ i c _ _ _ hnumber hsplit with ⟨-, hread⟩ | ⟨-, hread⟩
      · exact .inl hread
      · exact .inr hread
  | @word _ cs _ hfirst hrest hend =>
      obtain ⟨rfl, hmore⟩ := cons_split hsplit
      left
      rw [word_read hfirst, scanWord, hmore, takeWhile_run hrest hend]
      exact ⟨_, rfl⟩
  | parameter =>
      obtain ⟨rfl, -⟩ := cons_split hsplit
      left
      have hplain : Plain '?' rest := plain_of_not_mem (by decide)
      have hdigit := @not_isdigit_ascii py '?' (by decide) (by decide)
      have halpha : ¬ (py.isalpha '?' = true ∨ '?' = '_') := by
        rintro (h | h)
        · exact isalpha_ne h (by decide) (by decide) rfl
        · cases h
      rw [scanToken_plain hplain, scanPlain, if_neg, if_neg halpha, if_pos rfl]
      · exact ⟨_, rfl⟩
      · rw [startsNumber, Bool.or_eq_true, Bool.and_eq_true]
        rintro (h | h)
        · exact hdigit h
        · cases h.1
  | @twoChar _ _ type htwo =>
      have hmem := entry_mem htwo
      have htable : ∀ p ∈ twoCharOperators, (p.1.headD ' ').toNat < 128 ∧ (p.1.headD ' ').isDigit = false ∧
          (p.1.headD ' ').isAlpha = false ∧ p.1.headD ' ' ∉ [' ', '\t', '\r', '\n', '\'', '_', '?'] ∧
          p.1.headD ' ' ≠ '-' ∧ p.1.headD ' ' ≠ '/' ∧ p.1.headD ' ' ≠ '.' := by
        decide
      obtain ⟨a, b, rfl⟩ := List.length_eq_two.mp (length_two hmem)
      obtain ⟨hascii, hdigit, halpha, hnot, hminus, hslash, hdot⟩ := htable _ hmem
      rw [List.headD_cons] at hascii hdigit halpha hnot hminus hslash hdot
      obtain ⟨rfl, rfl⟩ := cons_split hsplit
      left
      rw [operator_read hascii hdigit halpha hnot (fun h => (hminus h).elim) (fun h => (hslash h).elim)
        (fun h => (hdot h).elim), scanOperator]
      have htake : (c :: ([b] ++ after)).take 2 = [c, b] := rfl
      rw [htake, htwo]
      exact ⟨_, rfl⟩
  | @oneChar _ _ type hone htwo hline hblock hpoint =>
      have htable : ∀ p ∈ oneCharOperators, p.1.toNat < 128 ∧ p.1.isDigit = false ∧
          p.1.isAlpha = false ∧ p.1 ∉ [' ', '\t', '\r', '\n', '\'', '_', '?'] := by
        decide
      obtain ⟨hascii, hdigit, halpha, hnot⟩ := htable _ (entry_mem hone)
      obtain ⟨rfl, rfl⟩ := cons_split hsplit
      left
      rw [operator_read hascii hdigit halpha hnot hline hblock hpoint, scanOperator]
      simp only
      rw [htwo, hone]
      exact ⟨_, rfl⟩

end Round

end Tokenizer

end QuillDb
