/-
  Sql/TokenizerSound.lean --- the tokens of a text.

  Source: `tokenize` of `quilldb/sql/tokenizer.py`.

  The tokens tile the text, blanks and comments between them.  The loop comes to every
  number that the grammar has, unless one before it does not convert.
-/
import QuillDb.Sql.Scan
import Mathlib.Data.List.Chain

set_option autoImplicit false

namespace QuillDb

namespace Tokenizer

/-! ## The loop -/

section Loop

variable {py : PyText} {sql rest text before after : List Char} {i fuel : Nat} {tokens : List Token}

/-- Nothing but blanks and comments from `start` to `stop`. -/
def Gap (sql : List Char) (start stop : Nat) : Prop :=
  start ≤ stop ∧ Blanks ((sql.drop start).take (stop - start)) (sql.drop stop)

/-- The tokens of the text from `start` on, each where it stands. -/
inductive Tiled (sql : List Char) : Nat → List Token → Prop
  | eof {start : Nat} (hgap : Gap sql start sql.length) : Tiled sql start [⟨.eof, "", none, sql.length⟩]
  | token {start : Nat} {t : Token} {text after : List Char} {tokens : List Token}
      (hgap : Gap sql start t.position) (htext : sql.drop t.position = text ++ after) (hne : text ≠ [])
      (ht : IsToken t.position text t) (hrest : Tiled sql (t.position + text.length) tokens) :
      Tiled sql start (t :: tokens)

theorem drop_add (h : sql.drop i = text ++ after) : sql.drop (i + text.length) = after := by
  rw [← List.drop_drop, h, List.drop_left]

theorem Gap.refl (sql : List Char) (i : Nat) : Gap sql i i := by
  refine ⟨Nat.le_refl i, ?_⟩
  rw [Nat.sub_self, List.take_zero]
  exact .nil

/-- A blank before a gap belongs to it. -/
theorem Gap.extend (hdrop : sql.drop i = text ++ after) (hblank : Blank text after) {stop : Nat}
    (h : Gap sql (i + text.length) stop) : Gap sql i stop := by
  obtain ⟨hle, hblanks⟩ := h
  refine ⟨by omega, ?_⟩
  have hlen : stop - i = text.length + (stop - (i + text.length)) := by omega
  rw [drop_add hdrop] at hblanks
  rw [hdrop, hlen, List.take_length_add_append]
  refine .cons ?_ hblanks
  have hstop : sql.drop stop = after.drop (stop - (i + text.length)) := by
    rw [← drop_add hdrop, List.drop_drop, Nat.add_sub_cancel' hle]
  rw [hstop, List.take_append_drop]
  exact hblank

theorem Tiled.extend (hdrop : sql.drop i = text ++ after) (hblank : Blank text after)
    (h : Tiled sql (i + text.length) tokens) : Tiled sql i tokens := by
  cases h with
  | eof hgap => exact .eof (hgap.extend hdrop hblank)
  | token hgap htext hne ht hrest => exact .token (hgap.extend hdrop hblank) htext hne ht hrest

/-- What the loop returns tiles the text. -/
theorem scanAll_ok (hi : i ≤ sql.length) (hrest : sql.drop i = rest)
    (h : scanAll py sql fuel i rest = .ok tokens) : Tiled sql i tokens := by
  induction fuel generalizing i rest tokens with
  | zero =>
      cases rest with
      | nil =>
          obtain rfl : i = sql.length := Nat.le_antisymm hi (List.drop_eq_nil_iff.mp hrest)
          cases h
          exact .eof (.refl sql _)
      | cons c rest => cases h
  | succ fuel ih =>
      cases rest with
      | nil =>
          obtain rfl : i = sql.length := Nat.le_antisymm hi (List.drop_eq_nil_iff.mp hrest)
          cases h
          exact .eof (.refl sql _)
      | cons c rest =>
          rw [scanAll] at h
          obtain ⟨⟨t, length⟩, hround, h⟩ := Fallible.bind_eq_ok h
          obtain ⟨more, hmore, h⟩ := Fallible.bind_eq_ok h
          cases h
          obtain ⟨text, after, hsplit, rfl, hne, hpiece⟩ := scanToken_ok hround
          have hdrop := hrest.trans hsplit
          have hlen := congrArg List.length hdrop
          rw [List.length_drop, List.length_append] at hlen
          have htiled := ih (by omega) (drop_add hdrop) (drop_front hsplit ▸ hmore)
          rcases hpiece with ⟨rfl, hblank⟩ | ⟨token, rfl, -, htoken⟩
          · exact htiled.extend hdrop hblank
          · obtain rfl := htoken.position
            exact .token (.refl sql _) hdrop hne htoken htiled

/-- Rounds that are not needed change nothing. -/
theorem scanAll_fuel (h : rest.length ≤ fuel) : scanAll py sql fuel i rest = scanAll py sql rest.length i rest := by
  induction fuel using Nat.strongRecOn generalizing i rest with
  | _ fuel ih =>
      cases rest with
      | nil => cases fuel <;> rfl
      | cons c rest =>
          obtain ⟨fuel, rfl⟩ : ∃ n, fuel = n + 1 := ⟨fuel - 1, by rw [List.length_cons] at h; omega⟩
          rw [List.length_cons, scanAll, scanAll]
          cases hround : scanToken py sql i c rest with
          | error e => rfl
          | ok r =>
              obtain ⟨text, after, hsplit, hlength, hne, -⟩ := scanToken_ok hround
              have hdrop : (c :: rest).drop r.2 = after := by
                rw [← hlength]
                exact drop_front hsplit
              have hlen := congrArg List.length hsplit
              have hpos := List.length_pos_iff.mpr hne
              rw [List.length_cons, List.length_append] at hlen
              rw [List.length_cons] at h
              simp only [bind, Except.bind, hdrop]
              rw [ih fuel (by omega) (by omega)]
              rcases Nat.lt_or_ge rest.length (fuel + 1) with hlt | hge
              · rw [ih rest.length hlt (by omega)]
              · omega

/-- An error of a later round is an error of the whole. -/
theorem scanAll_piece {c : Char} {t : Option Token} {e : DbError} (hsplit : c :: rest = text ++ after)
    (hne : text ≠ []) (hround : scanToken py sql i c rest = .ok (t, text.length))
    (h : scanAll py sql after.length (i + text.length) after = .error e) :
    scanAll py sql (text ++ after).length i (text ++ after) = .error e := by
  have hlen := congrArg List.length hsplit
  have hpos := List.length_pos_iff.mpr hne
  rw [List.length_cons, List.length_append] at hlen
  rw [← hsplit, List.length_cons, scanAll, hround]
  simp only [bind, Except.bind]
  rw [drop_front hsplit, scanAll_fuel (by omega), h]

theorem piece_ne_nil (h : Blank text after ∨ Lexeme py text after) : text ≠ [] := by
  rcases h with h | h
  · cases h <;> exact nofun
  · cases h with
    | number h =>
        intro hnil
        obtain ⟨hwhole, hmore⟩ := List.append_eq_nil_iff.mp hnil
        rcases h.starts with hne | ⟨d, digits, rfl⟩
        · exact hne hwhole
        · cases hmore
    | twoChar h => exact List.ne_nil_of_length_eq_add_one (length_two (entry_mem h))
    | _ => exact nofun

/-- The loop comes to every place that reading piece by piece comes to, unless it has raised
a `ValueError` before. -/
theorem reads_error (h : Reads py sql before after) :
    (∃ message, tokenize py sql = .error (.valueError message)) ∨
      ∀ e, scanAll py sql after.length before.length after = .error e → tokenize py sql = .error e := by
  induction h with
  | start => exact .inr fun _ h => h
  | @piece before text after _ hpiece ih =>
      rcases ih with hraised | ih
      · exact .inl hraised
      · have hne := piece_ne_nil hpiece
        obtain ⟨c, cs, rfl⟩ := List.exists_cons_of_ne_nil hne
        have hround : (∃ t, scanToken py sql before.length c (cs ++ after) = .ok (t, (c :: cs).length)) ∨
            ∃ message, scanToken py sql before.length c (cs ++ after) = .error (.valueError message) := by
          rcases hpiece with hblank | hlexeme
          · exact .inl ⟨_, blank_read hblank rfl⟩
          · exact lexeme_read hlexeme rfl
        rcases hround with ⟨t, hround⟩ | ⟨message, hround⟩
        · refine .inr fun e he => ih e (scanAll_piece rfl hne hround ?_)
          rw [List.length_append] at he
          exact he
        · refine .inl ⟨message, ih _ ?_⟩
          rw [List.cons_append, List.length_cons, scanAll, hround]
          rfl

/-- Where the numbers convert, only syntax errors are raised. -/
theorem scanAll_error (hnumbers : NumbersConvert py sql) (hreads : Reads py sql before rest)
    (hfuel : rest.length ≤ fuel) {e : DbError} (h : scanAll py sql fuel i rest = .error e) :
    ∃ message, e = .sqlSyntax message := by
  induction fuel generalizing i before rest with
  | zero =>
      cases rest with
      | nil => cases h
      | cons c rest => cases hfuel
  | succ fuel ih =>
      cases rest with
      | nil => cases h
      | cons c rest =>
          rw [scanAll] at h
          cases hround : scanToken py sql i c rest with
          | error e' =>
              rw [hround] at h
              cases h
              rcases scanToken_error hround with hrefused | ⟨whole, fraction, exponent, after, hsplit, hnumber, hnot⟩
              · exact hrefused
              · rw [hsplit] at hreads
                exact (hnot (hnumbers before whole fraction exponent after hreads hnumber)).elim
          | ok r =>
              rw [hround] at h
              obtain ⟨text, after, hsplit, hlength, hne, hpiece⟩ := scanToken_ok hround
              have hdrop : (c :: rest).drop r.2 = after := by
                rw [← hlength]
                exact drop_front hsplit
              simp only [bind, Except.bind, hdrop] at h
              have hlen := congrArg List.length hsplit
              have hpos := List.length_pos_iff.mpr hne
              rw [List.length_cons, List.length_append] at hlen
              rw [List.length_cons] at hfuel
              rw [hsplit] at hreads
              cases hmore : scanAll py sql fuel (i + r.2) after with
              | ok tokens =>
                  rw [hmore] at h
                  cases h
              | error e' =>
                  rw [hmore] at h
                  cases h
                  refine ih (hreads.piece ?_) (by omega) hmore
                  exact hpiece.imp (fun h => h.2) fun ⟨_, _, h, _⟩ => h

end Loop

/-! ## The tokens of a text -/

/-- What the tokens of a text are. -/
structure Scanned (sql : List Char) (tokens : List Token) : Prop where
  eof : ∃ front, tokens = front ++ [⟨.eof, "", none, sql.length⟩] ∧ ∀ t ∈ front, t.type ≠ .eof
  lexeme : ∀ t ∈ tokens, (sql.drop t.position).take t.lexeme.length = t.lexeme.toList
  increasing : tokens.Pairwise fun s t => s.position < t.position
  first : ∀ t, tokens.head? = some t → Gap sql 0 t.position
  between : tokens.IsChain fun s t => Gap sql (s.position + s.lexeme.length) t.position
  string : ∀ t ∈ tokens, t.type = .string → ∃ contents,
    t.lexeme.toList = '\'' :: (doubled contents ++ ['\'']) ∧ t.value = some (.text (String.ofList contents))

section Tokens

variable {py : PyText} {sql text : List Char} {start i : Nat} {t : Token} {tokens : List Token}

theorem Tiled.first (h : Tiled sql start tokens) (ht : tokens.head? = some t) : Gap sql start t.position := by
  cases h with
  | eof hgap =>
      obtain rfl := Option.some.inj ht
      exact hgap
  | token hgap _ _ _ _ =>
      obtain rfl := Option.some.inj ht
      exact hgap

theorem Tiled.position_ge (h : Tiled sql start tokens) : ∀ t ∈ tokens, start ≤ t.position := by
  induction h with
  | eof hgap => exact fun t ht => List.mem_singleton.mp ht ▸ hgap.1
  | token hgap _ _ _ _ ih =>
      refine List.forall_mem_cons.mpr ⟨hgap.1, fun t ht => ?_⟩
      have := ih t ht
      have := hgap.1
      omega

theorem IsToken.length (h : IsToken i text t) : t.lexeme.length = text.length := by
  rw [h.lexeme, String.length_ofList]

theorem Tiled.lexeme (h : Tiled sql start tokens) :
    ∀ t ∈ tokens, (sql.drop t.position).take t.lexeme.length = t.lexeme.toList := by
  induction h with
  | eof => exact fun t ht => List.mem_singleton.mp ht ▸ rfl
  | token _ htext _ ht _ ih =>
      refine List.forall_mem_cons.mpr ⟨?_, ih⟩
      rw [htext, ht.length, List.take_left, ht.lexeme, String.toList_ofList]

theorem Tiled.increasing (h : Tiled sql start tokens) :
    tokens.Pairwise fun s t => s.position < t.position := by
  induction h with
  | eof => exact List.pairwise_singleton _ _
  | token _ _ hne _ hrest ih =>
      refine List.pairwise_cons.mpr ⟨fun t ht => ?_, ih⟩
      have := hrest.position_ge t ht
      have := List.length_pos_iff.mpr hne
      omega

theorem Tiled.between (h : Tiled sql start tokens) :
    tokens.IsChain fun s t => Gap sql (s.position + s.lexeme.length) t.position := by
  induction h with
  | eof => exact .singleton _
  | @token _ t _ _ tokens _ _ _ ht hrest ih =>
      cases tokens with
      | nil => exact .singleton _
      | cons t' tokens =>
          refine .cons_cons ?_ ih
          rw [ht.length]
          exact hrest.first rfl

theorem Tiled.eof_last (h : Tiled sql start tokens) :
    ∃ front, tokens = front ++ [⟨.eof, "", none, sql.length⟩] ∧ ∀ t ∈ front, t.type ≠ .eof := by
  induction h with
  | eof => exact ⟨[], rfl, fun _ ht => nomatch ht⟩
  | @token _ t _ _ _ _ _ _ ht _ ih =>
      obtain ⟨front, rfl, hall⟩ := ih
      exact ⟨t :: front, rfl, List.forall_mem_cons.mpr ⟨ht.notEof, hall⟩⟩

theorem Tiled.string (h : Tiled sql start tokens) : ∀ t ∈ tokens, t.type = .string → ∃ contents,
    t.lexeme.toList = '\'' :: (doubled contents ++ ['\'']) ∧
      t.value = some (.text (String.ofList contents)) := by
  induction h with
  | eof =>
      intro t ht hstring
      obtain rfl := List.mem_singleton.mp ht
      cases hstring
  | token _ _ _ ht _ ih =>
      refine List.forall_mem_cons.mpr ⟨fun hstring => ?_, ih⟩
      obtain ⟨contents, htext, hvalue⟩ := ht.string hstring
      refine ⟨contents, ?_, hvalue⟩
      rw [ht.lexeme, String.toList_ofList, htext]

theorem Tiled.scanned (h : Tiled sql 0 tokens) : Scanned sql tokens :=
  ⟨h.eof_last, h.lexeme, h.increasing, fun _ => h.first, h.between, h.string⟩

/-- Scanning ends, with the tokens of the text or a syntax error. -/
structure TokenizeMeets (py : PyText) (sql : List Char) : Prop where
  outcome : (∃ tokens, tokenize py sql = .ok tokens ∧ Scanned sql tokens) ∨
    ∃ message, tokenize py sql = .error (.sqlSyntax message)
  terminates : ∀ rounds, sql.length ≤ rounds → scanAll py sql rounds 0 sql = tokenize py sql

end Tokens

/-- Scanning gives tokens or a syntax error exactly when every number that it comes to
converts. -/
theorem tokenize_meets_iff (py : PyText) (sql : List Char) : TokenizeMeets py sql ↔ NumbersConvert py sql := by
  constructor
  · intro hmeets before whole fraction exponent after hreads hnumber
    have hvalue : ¬ ∃ message, tokenize py sql = .error (.valueError message) := by
      rintro ⟨message, herror⟩
      rcases hmeets.outcome with ⟨tokens, hok, -⟩ | ⟨message', hrefused⟩
      · rw [hok] at herror
        cases herror
      · rw [hrefused] at herror
        cases herror
    by_contra hnot
    rcases reads_error hreads with hraised | hlater
    · exact hvalue hraised
    · obtain ⟨c, rest, hsplit⟩ := List.exists_cons_of_ne_nil (piece_ne_nil (.inr (.number hnumber)))
      have hfront : c :: (rest ++ after) = whole ++ (fraction ++ exponent) ++ after := by rw [hsplit]; rfl
      rcases @number_round py sql _ _ before.length c _ _ _ hnumber hfront with ⟨hconv, -⟩ | ⟨-, message, herror⟩
      · exact hnot hconv
      · refine hvalue ⟨message, hlater _ ?_⟩
        rw [← hfront, List.length_cons, scanAll, herror]
        rfl
  · intro hnumbers
    refine ⟨?_, fun rounds h => scanAll_fuel h⟩
    cases htokens : tokenize py sql with
    | ok tokens => exact .inl ⟨tokens, rfl, (scanAll_ok (Nat.zero_le _) rfl htokens).scanned⟩
    | error e =>
        obtain ⟨message, rfl⟩ := scanAll_error hnumbers .start (Nat.le_refl _) htokens
        exact .inr ⟨message, rfl⟩

/-! ## A digit that is no decimal -/

theorem toNat_of_isAlpha {c : Char} (h : c.isAlpha = true) : 65 ≤ c.toNat ∧ c.toNat ≤ 122 := by
  have hcase : c.isUpper = true ∨ c.isLower = true := Bool.or_eq_true_iff.mp h
  rcases hcase with h | h
  · obtain ⟨hlow, hhigh⟩ := of_decide_eq_true h
    have hlow' : 65 ≤ c.toNat := UInt32.le_iff_toNat_le.mp hlow
    have hhigh' : c.toNat ≤ 90 := UInt32.le_iff_toNat_le.mp hhigh
    omega
  · obtain ⟨hlow, hhigh⟩ := Bool.and_eq_true_iff.mp h
    have hlow' : 97 ≤ c.toNat := UInt32.le_iff_toNat_le.mp (of_decide_eq_true hlow)
    have hhigh' : c.toNat ≤ 122 := UInt32.le_iff_toNat_le.mp (of_decide_eq_true hhigh)
    omega

theorem toNat_of_isDigit {c : Char} (h : c.isDigit = true) : 48 ≤ c.toNat ∧ c.toNat ≤ 57 := by
  simp [Char.isDigit, UInt32.le_iff_toNat_le] at h
  omega

/-- The characters of Latin-1, among them the superscript digits and the fractions. -/
def latin1 : PyText where
  isLetter c := c.isAlpha || (192 ≤ c.toNat && c.toNat ≤ 255 && c.toNat ≠ 215 && c.toNat ≠ 247) ||
    c.toNat = 170 || c.toNat = 181 || c.toNat = 186
  numericType c :=
    if c.isDigit then .decimal (c.toNat - 48)
    else if c.toNat = 178 ∨ c.toNat = 179 ∨ c.toNat = 185 then .digit
    else if 188 ≤ c.toNat ∧ c.toNat ≤ 190 then .numeric
    else .none
  casefold s := s.toLower
  repr s := "'" ++ s ++ "'"
  float _ := 0
  letter_ascii c h := by
    have h1 : decide (192 ≤ c.toNat) = false := decide_eq_false (by omega)
    have h2 : decide (c.toNat = 170) = false := decide_eq_false (by omega)
    have h3 : decide (c.toNat = 181) = false := decide_eq_false (by omega)
    have h4 : decide (c.toNat = 186) = false := decide_eq_false (by omega)
    rw [h1, h2, h3, h4, Bool.false_and, Bool.false_and, Bool.false_and, Bool.or_false, Bool.or_false,
      Bool.or_false, Bool.or_false]
  numeric_ascii c h := by
    rw [if_neg (by omega : ¬ (c.toNat = 178 ∨ c.toNat = 179 ∨ c.toNat = 185)),
      if_neg (by omega : ¬ (188 ≤ c.toNat ∧ c.toNat ≤ 190))]
  letter_numeric c h := by
    have halpha : c.isAlpha = true → 65 ≤ c.toNat ∧ c.toNat ≤ 122 := toNat_of_isAlpha
    have hdigit : c.isDigit = true → 48 ≤ c.toNat ∧ c.toNat ≤ 57 := toNat_of_isDigit
    simp only [Bool.or_eq_true, Bool.and_eq_true, decide_eq_true_eq] at h
    have hrange : 65 ≤ c.toNat ∧ c.toNat ≤ 122 ∨ c.toNat = 170 ∨ c.toNat = 181 ∨ 186 = c.toNat ∨
        192 ≤ c.toNat := by
      rcases h with (((h | h) | h) | h) | h
      · exact .inl (halpha h)
      all_goals omega
    split
    · rename_i h'
      have := hdigit h'
      omega
    · rw [if_neg (by omega)]
      split
      · exact .inr rfl
      · exact .inl rfl

/-- The superscript two is a digit that `int` does not take. -/
theorem tokenize_raises_on_superscript :
    ¬ TokenizeMeets latin1 [Char.ofNat 0xb2] ∧
      tokenize latin1 [Char.ofNat 0xb2] = .error (.valueError "invalid literal for int() with base 10") := by
  have hrun : tokenize latin1 [Char.ofNat 0xb2] =
      .error (.valueError "invalid literal for int() with base 10") := by rfl
  refine ⟨fun h => ?_, hrun⟩
  rcases h.outcome with ⟨tokens, hok, -⟩ | ⟨message, herror⟩
  · rw [hrun] at hok
    cases hok
  · rw [hrun] at herror
    cases herror

end Tokenizer

end QuillDb
