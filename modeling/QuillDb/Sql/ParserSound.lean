/-
  Sql/ParserSound.lean --- the expressions that the parser accepts.

  Source: `_expression`, `_prefix`, `_atom` and `_function_call` of `quilldb/sql/parser.py`.

  What the parser returns is the tree of a phrase that climbing reads, and every such
  phrase is returned; the grammar has those with every operator in its place.
-/
import QuillDb.Sql.Climb
import QuillDb.Sql.TokenizerSound

set_option autoImplicit false

namespace QuillDb

open Ast Fallible

namespace Parser

/-! ## What was taken -/

/-- The tokens of a phrase are gone, and its tree is there. -/
structure Took {k : Kind} (c : Phrase k) (p : Parser) (value : k.Tree) (p' : Parser) : Prop where
  tokens : p.tokens = c.tokens ++ p'.tokens
  value : value = c.tree p.parameterCount
  count : p'.parameterCount = p.parameterCount + c.params

/-- A recursion of `_expression` with this binding power, from `p` to `p'`. -/
def Whole (m : Nat) (p : Parser) (e : Expression) (p' : Parser) : Prop :=
  ∃ (c : Phrase .expression) (next : Token), Took c p e p' ∧ p'.tokens.head? = some next ∧
    c.Reads m next.type ∧ Stops m c.usedComparison next.type

/-- An operand, from `p` to `p'`. -/
def Operand (p : Parser) (e : Expression) (p' : Parser) : Prop :=
  ∃ c : Phrase .expression, Took c p e p' ∧ c.usedComparison = false ∧
    ∀ m, ∀ next ∈ p'.tokens.head?, c.Reads m next.type

/-- A list of arguments, from `p` to `p'`. -/
def Args (p : Parser) (args : List Expression) (p' : Parser) : Prop :=
  ∃ (c : Phrase .arguments) (next : Token), Took c p args p' ∧ p'.tokens.head? = some next ∧
    c.Reads 0 next.type

section Peek

variable {py : PyText} {p p' : Parser} {token : Token} {type : TokenType} {message : String}

theorem peek_cons (token : Token) (rest : List Token) (n : Nat) : peek ⟨token :: rest, n⟩ = .ok token := rfl

/-- What was peeked at is the next token. -/
theorem peek_ok (h : p.peek = .ok token) : p.tokens = token :: p.advance.tokens ∧ p.tokens.head? = some token := by
  unfold peek at h
  split at h
  · rename_i token' rest htokens
    cases h
    rw [advance, htokens]
    exact ⟨rfl, rfl⟩
  · cases h

theorem advance_count (p : Parser) : p.advance.parameterCount = p.parameterCount := rfl

theorem expect_ok (h : expect py p type message = .ok (token, p')) :
    p.tokens = token :: p'.tokens ∧ token.type = type ∧ p'.parameterCount = p.parameterCount := by
  obtain ⟨token', hpeek, h⟩ := bind_eq_ok h
  split at h
  · cases h
  · rename_i htype
    cases h
    exact ⟨(peek_ok hpeek).1, not_not.mp htype, rfl⟩

theorem expect_cons {token : Token} {rest : List Token} {n : Nat} (h : token.type = type) :
    expect py ⟨token :: rest, n⟩ type message = .ok (token, ⟨rest, n⟩) := by
  rw [expect, peek_cons]
  exact if_neg (not_not.mpr h)

/-- `IS` is gone: the rest of a test for NULL. -/
theorem isNullTest_ok {negated : Bool} (h : isNullTest py p = .ok (negated, p')) :
    ∃ (negation : Option Token) (null : Token), p.tokens = negation.toList ++ null :: p'.tokens ∧
      (∀ t ∈ negation, t.type = .not) ∧ null.type = .null ∧ negated = negation.isSome ∧
        p'.parameterCount = p.parameterCount := by
  obtain ⟨token, hpeek, h⟩ := bind_eq_ok h
  obtain ⟨⟨null, p''⟩, hexpect, h⟩ := bind_eq_ok h
  cases h
  obtain ⟨htokens, htype, hcount⟩ := expect_ok hexpect
  by_cases hnot : token.type = .not
  · rw [if_pos (decide_eq_true hnot)] at htokens hcount
    refine ⟨some token, null, ?_, ?_, htype, decide_eq_true hnot, hcount⟩
    · rw [(peek_ok hpeek).1, htokens]
      rfl
    · rintro t ht
      exact Option.some.inj ht ▸ hnot
  · rw [if_neg (ne_true_of_eq_false (decide_eq_false hnot))] at htokens hcount
    exact ⟨none, null, htokens, nofun, htype, decide_eq_false hnot, hcount⟩

theorem isNullTest_cons {negation : Option Token} {null : Token} {rest : List Token} {n : Nat}
    (hnegation : ∀ t ∈ negation, t.type = .not) (hnull : null.type = .null) :
    isNullTest py ⟨negation.toList ++ null :: rest, n⟩ = .ok (negation.isSome, ⟨rest, n⟩) := by
  cases negation with
  | none =>
      rw [Option.toList_none, List.nil_append, isNullTest, peek_cons]
      simp only [bind, Except.bind, hnull]
      rw [if_neg (by decide), expect_cons hnull]
      rfl
  | some token =>
      rw [Option.toList_some, List.singleton_append, isNullTest, peek_cons]
      simp only [bind, Except.bind, hnegation token rfl]
      rw [if_pos (by decide), advance, List.tail_cons, expect_cons hnull]
      rfl

theorem qualifiedColumn_ok {table : Token} {e : Expression} (h : qualifiedColumn py table p = .ok (e, p')) :
    ∃ name, p.tokens = name :: p'.tokens ∧ name.type = .identifier ∧
      e = .column name.lexeme (some table.lexeme) ∧ p'.parameterCount = p.parameterCount := by
  obtain ⟨⟨name, p''⟩, hexpect, h⟩ := bind_eq_ok h
  cases h
  obtain ⟨htokens, htype, hcount⟩ := expect_ok hexpect
  exact ⟨name, htokens, htype, rfl, hcount⟩

end Peek

/-! ## Every tree is that of a phrase -/

section Sound

variable (py : PyText)

/-- What each of the functions returns, with this fuel. -/
structure Sound (fuel : Nat) : Prop where
  expression : ∀ m p e p', expression py fuel m p = .ok (e, p') → Whole m p e p'
  loop : ∀ m p₀ (l : Phrase .expression) left p e p', Took l p₀ left p → (∀ next ∈ p.tokens.head?, l.Reads m next.type) →
    expressionLoop py fuel m left l.usedComparison p = .ok (e, p') → Whole m p₀ e p'
  operand : ∀ p e p', prefixExpression py fuel p = .ok (e, p') → Operand p e p'
  atom : ∀ p e p', Parser.atom py fuel p = .ok (e, p') → Operand p e p'
  call : ∀ name left p e p', name.type = .identifier → left.type = .leftParen →
    functionCall py fuel name.lexeme p = .ok (e, p') →
      Operand ⟨name :: left :: p.tokens, p.parameterCount⟩ e p'
  args : ∀ p args p', arguments py fuel p = .ok (args, p') → Args p args p'

variable {py} {fuel : Nat} {p p' : Parser} {e : Expression}

theorem expression_sound (ih : Sound py fuel) {m : Nat} (h : expression py (fuel + 1) m p = .ok (e, p')) :
    Whole m p e p' := by
  rw [expression] at h
  obtain ⟨⟨left, p₁⟩, hleft, h⟩ := bind_eq_ok h
  obtain ⟨l, htook, hunused, hreads⟩ := ih.operand _ _ _ hleft
  exact ih.loop m p l left p₁ e p' htook (hreads m) (hunused ▸ h)

theorem Took.binary {l r : Phrase .expression} {left right : Expression} {token : Token} {operator : BinaryOperator}
    {p₁ : Parser} (hl : Took l p left p₁) (htoken : p₁.tokens = token :: p₁.advance.tokens)
    (hr : Took r p₁.advance right p') :
    Took (.binary l token operator r) p (.binaryOp left operator right) p' where
  tokens := by
    rw [hl.tokens, htoken, hr.tokens, Phrase.tokens, List.append_assoc, List.cons_append]
  value := by
    rw [hl.value, hr.value, advance_count, hl.count]
    rfl
  count := by
    rw [hr.count, advance_count, hl.count, Nat.add_assoc]
    rfl

theorem Took.isNull {l : Phrase .expression} {left : Expression} {is_ null : Token} {negation : Option Token}
    {p₁ : Parser} (hl : Took l p left p₁) (his : p₁.tokens = is_ :: p₁.advance.tokens)
    (htest : p₁.advance.tokens = negation.toList ++ null :: p'.tokens)
    (hcount : p'.parameterCount = p₁.parameterCount) :
    Took (.isNull l is_ negation null) p (.isNull left negation.isSome) p' where
  tokens := by
    rw [hl.tokens, his, htest, Phrase.tokens, List.append_assoc, List.cons_append, List.append_assoc,
      List.singleton_append]
  value := by
    rw [hl.value]
    rfl
  count := hcount.trans hl.count

/-- The flag that is handed on. -/
theorem decide_power {type : TokenType} {power : Nat} {operator : BinaryOperator}
    (h : binaryOperators type = some (power, operator)) :
    decide (power = comparisonBindingPower) = decide (operator.tier = .comparison) := by
  obtain ⟨-, rfl⟩ := eq_of_binaryOperators h
  exact decide_eq_decide.mpr ⟨tier_eq_comparison, fun h => congrArg Tier.power h⟩

theorem bindingPower_of {type : TokenType} (h : type ≠ .is) :
    bindingPower type = (binaryOperators type).map Prod.fst := by
  unfold bindingPower
  split
  · exact absurd rfl h
  · rfl

theorem loop_sound (ih : Sound py fuel) {m : Nat} {p₀ : Parser} {l : Phrase .expression} {left : Expression}
    (htook : Took l p₀ left p) (hreads : ∀ next ∈ p.tokens.head?, l.Reads m next.type)
    (h : expressionLoop py (fuel + 1) m left l.usedComparison p = .ok (e, p')) : Whole m p₀ e p' := by
  rw [expressionLoop] at h
  obtain ⟨token, hpeek, h⟩ := bind_eq_ok h
  obtain ⟨htokens, hhead⟩ := peek_ok hpeek
  have hl := hreads token hhead
  -- the recursion is over at this token
  have hover : Stops m l.usedComparison token.type → (left, p) = (e, p') → Whole m p₀ e p' := by
    rintro hstops heq
    cases heq
    exact ⟨l, token, htook, hhead, hl, hstops⟩
  split at h
  · rename_i his
    split at h
    · rename_i hstops
      refine hover ?_ (Except.ok.inj h)
      rw [his]
      rintro power hpower
      cases hpower
      exact hstops.imp_right fun hused => ⟨rfl, hused⟩
    · rename_i hgo
      obtain ⟨hle, hunused⟩ := not_or.mp hgo
      obtain ⟨⟨negated, p₁⟩, htest, h⟩ := bind_eq_ok h
      obtain ⟨negation, null, hparts, hnegation, hnull, rfl, hcount⟩ := isNullTest_ok htest
      exact ih.loop m p₀ (.isNull l token negation null) _ p₁ e p' (htook.isNull htokens hparts hcount)
        (fun _ _ => ⟨his, Nat.le_of_not_lt hle, Bool.not_eq_true _ |>.mp hunused, hl, hnegation, hnull⟩) h
  · rename_i his
    have hbinds := bindingPower_of his
    split at h
    · rename_i htable
      refine hover (stops_of_none ?_) (Except.ok.inj h)
      rw [hbinds, htable]
      rfl
    · rename_i power operator htable
      rw [htable] at hbinds
      split at h
      · rename_i hlt
        refine hover (fun power' hpower' => ?_) (Except.ok.inj h)
        rw [hbinds] at hpower'
        cases hpower'
        exact .inl hlt
      · rename_i hle
        split at h
        · rename_i hchained
          refine hover (fun power' hpower' => ?_) (Except.ok.inj h)
          rw [hbinds] at hpower'
          cases hpower'
          exact .inr hchained
        · rename_i hfree
          obtain ⟨⟨right, p₁⟩, hright, h⟩ := bind_eq_ok h
          obtain ⟨r, next, htookRight, hnext, hr, hstops⟩ := ih.expression _ _ _ _ hright
          simp only [decide_power htable] at h
          refine ih.loop m p₀ (.binary l token operator r) _ p₁ e p' (htook.binary htokens htookRight) ?_ h
          rintro next' hnext'
          obtain rfl := Option.some.inj (hnext.symm.trans hnext')
          exact ⟨power, htable, Nat.le_of_not_lt hle, hfree, hl, hr, hstops⟩

theorem prefix_sound (ih : Sound py fuel) (h : prefixExpression py (fuel + 1) p = .ok (e, p')) :
    Operand p e p' := by
  rw [prefixExpression] at h
  obtain ⟨token, hpeek, h⟩ := bind_eq_ok h
  obtain ⟨htokens, -⟩ := peek_ok hpeek
  split at h
  · rename_i hnot
    obtain ⟨⟨operand, p₁⟩, hoperand, h⟩ := bind_eq_ok h
    cases h
    obtain ⟨c, next, htook, hnext, hc, hstops⟩ := ih.expression _ _ _ _ hoperand
    refine ⟨.not token c, ⟨?_, ?_, htook.count⟩, rfl, fun m next' hnext' => ?_⟩
    · rw [htokens, htook.tokens]
      rfl
    · rw [htook.value]
      rfl
    · obtain rfl := Option.some.inj (hnext.symm.trans hnext')
      exact ⟨hnot, hc, hstops⟩
  · split at h
    · rename_i operator hsign
      obtain ⟨⟨operand, p₁⟩, hoperand, h⟩ := bind_eq_ok h
      cases h
      obtain ⟨c, next, htook, hnext, hc, hstops⟩ := ih.expression _ _ _ _ hoperand
      refine ⟨.sign token operator c, ⟨?_, ?_, htook.count⟩, rfl, fun m next' hnext' => ?_⟩
      · rw [htokens, htook.tokens]
        rfl
      · rw [htook.value]
        rfl
      · obtain rfl := Option.some.inj (hnext.symm.trans hnext')
        exact ⟨hsign, hc, hstops⟩
    · exact ih.atom _ _ _ h

/-- An operand of tokens of its own. -/
theorem operand_atom {a : Atom} (htokens : p.tokens = a.tokens ++ p'.tokens) (hfits : a.Fits)
    (hends : ∀ next ∈ p'.tokens.head?, a.Ends next.type) (he : e = a.tree p.parameterCount)
    (hcount : p'.parameterCount = p.parameterCount + a.params) : Operand p e p' :=
  ⟨.atom a, ⟨htokens, he, hcount⟩, rfl, fun _ next hnext => ⟨hfits, hends next hnext⟩⟩

theorem atom_sound (ih : Sound py fuel) (h : Parser.atom py (fuel + 1) p = .ok (e, p')) : Operand p e p' := by
  rw [Parser.atom] at h
  obtain ⟨token, hpeek, h⟩ := bind_eq_ok h
  obtain ⟨htokens, -⟩ := peek_ok hpeek
  split at h
  · rename_i htype
    cases h
    exact @operand_atom _ _ _ (.literal token) htokens (.inl htype) (fun _ _ => trivial) rfl rfl
  · rename_i htype
    cases h
    exact @operand_atom _ _ _ (.literal token) htokens (.inr (.inl htype)) (fun _ _ => trivial) rfl rfl
  · rename_i htype
    cases h
    exact @operand_atom _ _ _ (.literal token) htokens (.inr (.inr htype)) (fun _ _ => trivial) rfl rfl
  · rename_i htype
    cases h
    exact @operand_atom _ _ _ (.null token) htokens htype (fun _ _ => trivial) rfl rfl
  · rename_i htype
    obtain ⟨next, hnext, h⟩ := bind_eq_ok h
    obtain ⟨hbehind, hhead⟩ := peek_ok hnext
    split at h
    · rename_i hparen
      have hcall := ih.call token next _ e p' htype hparen h
      rwa [← hbehind, ← htokens] at hcall
    · rename_i hparen
      split at h
      · rename_i hdot
        obtain ⟨name, hname, hidentifier, rfl, hcount⟩ := qualifiedColumn_ok h
        refine @operand_atom _ _ _ (.qualified token next name) ?_ ⟨htype, hdot, hidentifier⟩
          (fun _ _ => trivial) rfl hcount
        rw [htokens, hbehind, hname]
        rfl
      · rename_i hdot
        cases h
        refine @operand_atom _ _ _ (.column token) htokens htype (fun next' hnext' => ?_) rfl rfl
        obtain rfl := Option.some.inj (hhead.symm.trans hnext')
        exact ⟨hparen, hdot⟩
  · rename_i htype
    cases h
    exact @operand_atom _ _ _ (.parameter token) htokens htype (fun _ _ => trivial) rfl rfl
  · rename_i htype
    obtain ⟨⟨operand, p₁⟩, hinner, h⟩ := bind_eq_ok h
    obtain ⟨⟨right, p₂⟩, hright, h⟩ := bind_eq_ok h
    cases h
    obtain ⟨c, next, htook, hnext, hc, hstops⟩ := ih.expression _ _ _ _ hinner
    obtain ⟨hbehind, hparen, hcount⟩ := expect_ok hright
    obtain rfl : right = next := by
      rw [hbehind, List.head?_cons] at hnext
      exact Option.some.inj hnext
    refine ⟨.paren token c right, ⟨?_, htook.value, hcount.trans htook.count⟩, rfl,
      fun m next' hnext' => ⟨htype, ⟨hc, hstops⟩, hparen⟩⟩
    rw [htokens, htook.tokens, hbehind, Phrase.tokens, List.cons_append, List.append_assoc, List.singleton_append]
  · cases h

theorem call_sound (ih : Sound py fuel) {name left : Token} (hname : name.type = .identifier)
    (hleft : left.type = .leftParen) (h : functionCall py (fuel + 1) name.lexeme p = .ok (e, p')) :
    Operand ⟨name :: left :: p.tokens, p.parameterCount⟩ e p' := by
  rw [functionCall] at h
  obtain ⟨token, hpeek, h⟩ := bind_eq_ok h
  obtain ⟨htokens, -⟩ := peek_ok hpeek
  split at h
  · rename_i hstar
    obtain ⟨⟨right, p₁⟩, hright, h⟩ := bind_eq_ok h
    cases h
    obtain ⟨hbehind, hparen, hcount⟩ := expect_ok hright
    refine @operand_atom _ _ _ (.star name left token right) ?_ ⟨hname, hleft, hstar, hparen⟩
      (fun _ _ => trivial) rfl hcount
    rw [htokens, hbehind]
    rfl
  · obtain ⟨⟨args, p₁⟩, hargs, h⟩ := bind_eq_ok h
    obtain ⟨⟨right, p₂⟩, hright, h⟩ := bind_eq_ok h
    cases h
    obtain ⟨c, next, htook, hnext, hc⟩ := ih.args _ _ _ hargs
    obtain ⟨hbehind, hparen, hcount⟩ := expect_ok hright
    obtain rfl : right = next := by
      rw [hbehind, List.head?_cons] at hnext
      exact Option.some.inj hnext
    refine ⟨.call name left c right, ⟨?_, ?_, hcount.trans htook.count⟩, rfl,
      fun m next' hnext' => ⟨hname, hleft, hc, hparen⟩⟩
    · rw [htook.tokens, hbehind, Phrase.tokens, List.cons_append, List.cons_append, List.append_assoc,
        List.singleton_append]
    · rw [htook.value]
      rfl

theorem args_sound (ih : Sound py fuel) {args : List Expression}
    (h : arguments py (fuel + 1) p = .ok (args, p')) : Args p args p' := by
  rw [arguments] at h
  obtain ⟨⟨argument, p₁⟩, hargument, h⟩ := bind_eq_ok h
  obtain ⟨token, hpeek, h⟩ := bind_eq_ok h
  obtain ⟨htokens, hhead⟩ := peek_ok hpeek
  obtain ⟨c, next, htook, hnext, hc, hstops⟩ := ih.expression _ _ _ _ hargument
  obtain rfl := Option.some.inj (hnext.symm.trans hhead)
  split at h
  · rename_i hcomma
    obtain ⟨⟨more, p₂⟩, hmore, h⟩ := bind_eq_ok h
    cases h
    obtain ⟨cs, next', htookMore, hnext', hcs⟩ := ih.args _ _ _ hmore
    refine ⟨.more c next cs, next', ⟨?_, ?_, ?_⟩, hnext', ⟨hc, hstops⟩, hcomma, hcs⟩
    · rw [htook.tokens, htokens, htookMore.tokens, Phrase.tokens, List.append_assoc, List.cons_append]
    · rw [htook.value, htookMore.value, advance_count, htook.count]
      rfl
    · rw [htookMore.count, advance_count, htook.count, Nat.add_assoc]
      rfl
  · rename_i hcomma
    cases h
    refine ⟨.one c, next, ⟨htook.tokens, ?_, htook.count⟩, hnext, ⟨hc, hstops⟩, hcomma⟩
    rw [htook.value]
    rfl

/-- Whatever the fuel is. -/
theorem sound (py : PyText) (fuel : Nat) : Sound py fuel := by
  induction fuel with
  | zero => constructor <;> intros <;> contradiction
  | succ fuel ih =>
      exact {
        expression := fun _ _ _ _ h => expression_sound ih h
        loop := fun _ _ _ _ _ _ _ htook hreads h => loop_sound ih htook hreads h
        operand := fun _ _ _ h => prefix_sound ih h
        atom := fun _ _ _ h => atom_sound ih h
        call := fun _ _ _ _ _ hname hleft h => call_sound ih hname hleft h
        args := fun _ _ _ h => args_sound ih h }

end Sound

/-! ## Every phrase is returned -/

end Parser

namespace Phrase

/-- The operators that one recursion applies. -/
def rounds : {k : Kind} → Phrase k → Nat
  | _, binary left _ _ _ => left.rounds + 1
  | _, isNull operand _ _ _ => operand.rounds + 1
  | _, _ => 0

/-- Every operator has a token, and so has the first operand. -/
theorem rounds_lt {k : Kind} (c : Phrase k) : c.rounds < c.tokens.length := by
  induction c with
  | binary _ _ _ _ ih _ =>
      rw [rounds, tokens, List.length_append, List.length_cons]
      omega
  | isNull _ _ _ _ ih =>
      rw [rounds, tokens, List.length_append, List.length_cons]
      omega
  | atom a => cases a <;> exact Nat.le_add_left 1 _
  | one _ ih => exact Nat.zero_lt_of_lt ih
  | more _ _ _ _ _ =>
      rw [tokens, List.length_append, List.length_cons]
      exact Nat.succ_pos _
  | _ => exact Nat.succ_pos _

end Phrase

namespace Parser

section Complete

variable {py : PyText} {fuel m n : Nat} {next : Token} {rest : List Token}

/-- The loop behind an operand. -/
theorem expression_of_operand {e : Expression} {p p' : Parser} (h : prefixExpression py fuel p = .ok (e, p')) :
    expression py (fuel + 1) m p = expressionLoop py fuel m e false p' := by
  rw [expression, h]
  rfl

/-- The loop ends in front of a token that it stops at. -/
theorem loop_of_stops {left : Expression} {used : Bool} (h : Stops m used next.type) :
    expressionLoop py (fuel + 1) m left used ⟨next :: rest, n⟩ = .ok (left, ⟨next :: rest, n⟩) := by
  rw [expressionLoop, peek_cons]
  simp only [bind, Except.bind]
  split
  · rename_i his
    rw [if_pos]
    · rfl
    · refine (h comparisonBindingPower ?_).imp_right fun h => h.2
      rw [his]
      rfl
  · rename_i his
    have hbinds := bindingPower_of his
    split
    · rfl
    · rename_i power operator htable
      rw [htable] at hbinds
      rcases h power hbinds with hlt | hchained
      · rw [if_pos hlt]
        rfl
      · split
        · rfl
        · rfl

theorem loop_isNull {left : Expression} {is_ null : Token} {negation : Option Token} {ts : List Token}
    (his : is_.type = .is) (hle : m ≤ comparisonBindingPower) (hnegation : ∀ t ∈ negation, t.type = .not)
    (hnull : null.type = .null) :
    expressionLoop py (fuel + 1) m left false ⟨is_ :: (negation.toList ++ null :: ts), n⟩ =
      expressionLoop py fuel m (.isNull left negation.isSome) true ⟨ts, n⟩ := by
  rw [expressionLoop, peek_cons]
  simp only [bind, Except.bind]
  rw [if_pos his, if_neg, advance, List.tail_cons, isNullTest_cons hnegation hnull]
  rintro (hlt | hused)
  · exact Nat.not_lt.mpr hle hlt
  · cases hused

theorem loop_binary {left right : Expression} {token : Token} {operator : BinaryOperator} {power : Nat}
    {used : Bool} {ts : List Token} {p' : Parser} (htable : binaryOperators token.type = some (power, operator))
    (hle : m ≤ power) (hfree : ¬ (power = comparisonBindingPower ∧ used = true))
    (hright : expression py fuel (power + 1) ⟨ts, n⟩ = .ok (right, p')) :
    expressionLoop py (fuel + 1) m left used ⟨token :: ts, n⟩ =
      expressionLoop py fuel m (.binaryOp left operator right) (used || operator.tier = .comparison) p' := by
  have his : token.type ≠ .is := by
    intro his
    rw [his] at htable
    cases htable
  rw [expressionLoop, peek_cons]
  simp only [bind, Except.bind]
  rw [if_neg his, htable]
  simp only
  rw [if_neg (Nat.not_lt.mpr hle), if_neg hfree, advance, List.tail_cons, hright, decide_power htable]

/-- What is read before a token is what the parser returns in front of it. -/
def Complete (py : PyText) : {k : Kind} → Phrase k → Prop
  | .expression, c => ∀ fuel m n next rest, c.Reads m next.type → 4 * c.tokens.length ≤ fuel + c.rounds + 1 →
      expression py (fuel + c.rounds + 1) m ⟨c.tokens ++ next :: rest, n⟩ =
        expressionLoop py fuel m (c.tree n) c.usedComparison ⟨next :: rest, n + c.params⟩
  | .arguments, c => ∀ fuel n next rest, c.Reads 0 next.type → 4 * c.tokens.length < fuel →
      arguments py fuel ⟨c.tokens ++ next :: rest, n⟩ = .ok (c.tree n, ⟨next :: rest, n + c.params⟩)

/-- A whole recursion. -/
theorem Complete.whole {c : Phrase .expression} (h : Complete py c) (hreads : c.Reads m next.type)
    (hstops : Stops m c.usedComparison next.type) (hfuel : 4 * c.tokens.length ≤ fuel) :
    expression py fuel m ⟨c.tokens ++ next :: rest, n⟩ = .ok (c.tree n, ⟨next :: rest, n + c.params⟩) := by
  have hrounds := c.rounds_lt
  obtain ⟨fuel, rfl⟩ : ∃ fuel', fuel = fuel' + 1 + c.rounds + 1 := ⟨fuel - c.rounds - 2, by omega⟩
  rw [h (fuel + 1) m n next rest hreads hfuel]
  exact loop_of_stops hstops

/-- A token that starts no NOT and no sign is left to `_atom`. -/
theorem prefix_of_atom {token : Token} {ts : List Token} (hnot : token.type ≠ .not)
    (hsign : unaryArithmeticOperators token.type = none) :
    prefixExpression py (fuel + 1) ⟨token :: ts, n⟩ = Parser.atom py fuel ⟨token :: ts, n⟩ := by
  rw [prefixExpression, peek_cons]
  simp only [bind, Except.bind]
  rw [if_neg hnot, hsign]

/-- A token that an atom starts with. -/
theorem prefix_of_type {token : Token} {type : TokenType} {ts : List Token} (htoken : token.type = type)
    (hnot : type ≠ .not) (hsign : unaryArithmeticOperators type = none) :
    prefixExpression py (fuel + 1) ⟨token :: ts, n⟩ = Parser.atom py fuel ⟨token :: ts, n⟩ := by
  subst htoken
  exact prefix_of_atom hnot hsign

theorem atom_column {name : Token} (htype : name.type = .identifier) (hparen : next.type ≠ .leftParen)
    (hdot : next.type ≠ .dot) :
    Parser.atom py (fuel + 1) ⟨name :: next :: rest, n⟩ = .ok (.column name.lexeme none, ⟨next :: rest, n⟩) := by
  rw [Parser.atom, peek_cons]
  simp only [bind, Except.bind, htype, advance, List.tail_cons, peek_cons]
  rw [if_neg hparen, if_neg hdot]
  rfl

theorem atom_qualified {table dot name : Token} {ts : List Token} (htype : table.type = .identifier)
    (hdot : dot.type = .dot) (hname : name.type = .identifier) :
    Parser.atom py (fuel + 1) ⟨table :: dot :: name :: ts, n⟩ =
      .ok (.column name.lexeme (some table.lexeme), ⟨ts, n⟩) := by
  rw [Parser.atom, peek_cons]
  simp only [bind, Except.bind, htype, advance, List.tail_cons, peek_cons, hdot]
  rw [if_neg (by decide), if_pos trivial, qualifiedColumn, expect_cons hname]
  rfl

/-- A name and a parenthesis are a call. -/
theorem atom_call {name left : Token} {ts : List Token} (htype : name.type = .identifier)
    (hleft : left.type = .leftParen) :
    Parser.atom py (fuel + 1) ⟨name :: left :: ts, n⟩ = functionCall py fuel name.lexeme ⟨ts, n⟩ := by
  rw [Parser.atom, peek_cons]
  simp only [bind, Except.bind, htype, advance, List.tail_cons, peek_cons, hleft]
  rw [if_pos trivial]

theorem call_star {name asterisk right : Token} {ts : List Token} (hstar : asterisk.type = .star)
    (hright : right.type = .rightParen) :
    functionCall py (fuel + 1) name.lexeme ⟨asterisk :: right :: ts, n⟩ =
      .ok (.functionCall name.lexeme [] true, ⟨ts, n⟩) := by
  rw [functionCall, peek_cons]
  simp only [bind, Except.bind, advance, List.tail_cons]
  rw [if_pos hstar, expect_cons hright]
  rfl

theorem prefix_operand {a : Atom} (hfits : a.Fits) (hends : a.Ends next.type) :
    prefixExpression py (fuel + 3) ⟨a.tokens ++ next :: rest, n⟩ =
      .ok (a.tree n, ⟨next :: rest, n + a.params⟩) := by
  cases a with
  | literal token =>
      rcases hfits with htype | htype | htype
      all_goals
        refine (prefix_of_type htype (by decide) rfl).trans ?_
        rw [Parser.atom, peek_cons]
        simp only [bind, Except.bind, htype]
        rfl
  | null token =>
      have htype : token.type = .null := hfits
      refine (prefix_of_type htype (by decide) rfl).trans ?_
      rw [Parser.atom, peek_cons]
      simp only [bind, Except.bind, htype]
      rfl
  | column name => exact (prefix_of_type hfits (by decide) rfl).trans (atom_column hfits hends.1 hends.2)
  | qualified table dot name =>
      obtain ⟨htype, hdot, hname⟩ := hfits
      exact (prefix_of_type htype (by decide) rfl).trans (atom_qualified htype hdot hname)
  | parameter token =>
      have htype : token.type = .parameter := hfits
      refine (prefix_of_type htype (by decide) rfl).trans ?_
      rw [Parser.atom, peek_cons]
      simp only [bind, Except.bind, htype]
      rfl
  | star name left asterisk right =>
      obtain ⟨htype, hleft, hstar, hright⟩ := hfits
      exact (prefix_of_type htype (by decide) rfl).trans ((atom_call htype hleft).trans (call_star hstar hright))

theorem ne_of_type {token : Token} {type type' : TokenType} (h : token.type = type) (hne : type ≠ type') :
    token.type ≠ type' := by
  rwa [h]

/-- No argument starts with `*`. -/
theorem args_head {k : Kind} (c : Phrase k) : ∀ {m : Nat} {next : TokenType}, c.Reads m next →
    ∃ token ts, c.tokens = token :: ts ∧ token.type ≠ .star := by
  induction c with
  | atom a =>
      rintro m next ⟨hfits, -⟩
      cases a with
      | literal token =>
          refine ⟨token, [], rfl, fun hstar => ?_⟩
          rw [Atom.Fits, hstar] at hfits
          exact absurd hfits (by decide)
      | null token => exact ⟨token, [], rfl, ne_of_type hfits (by decide)⟩
      | column name => exact ⟨name, [], rfl, ne_of_type hfits (by decide)⟩
      | qualified table dot name => exact ⟨table, _, rfl, ne_of_type hfits.1 (by decide)⟩
      | parameter token => exact ⟨token, [], rfl, ne_of_type hfits (by decide)⟩
      | star name left asterisk right => exact ⟨name, _, rfl, ne_of_type hfits.1 (by decide)⟩
  | paren left inner right _ =>
      rintro m next ⟨hleft, -⟩
      exact ⟨left, _, rfl, ne_of_type hleft (by decide)⟩
  | call name left args right _ =>
      rintro m next ⟨hname, -⟩
      exact ⟨name, _, rfl, ne_of_type hname (by decide)⟩
  | not token operand _ =>
      rintro m next ⟨htoken, -⟩
      exact ⟨token, _, rfl, ne_of_type htoken (by decide)⟩
  | sign token operator operand _ =>
      rintro m next ⟨htoken, -⟩
      refine ⟨token, _, rfl, fun hstar => ?_⟩
      rw [hstar] at htoken
      cases htoken
  | binary left token operator right ih _ =>
      rintro m next ⟨power, -, -, -, hleft, -⟩
      obtain ⟨first, ts, htokens, hfirst⟩ := ih hleft
      exact ⟨first, ts ++ token :: right.tokens, by rw [Phrase.tokens, htokens, List.cons_append], hfirst⟩
  | isNull operand is_ negation null ih =>
      rintro m next ⟨-, -, -, hoperand, -⟩
      obtain ⟨first, ts, htokens, hfirst⟩ := ih hoperand
      exact ⟨first, _, by rw [Phrase.tokens, htokens, List.cons_append], hfirst⟩
  | one argument ih =>
      rintro m next ⟨⟨hargument, -⟩, -⟩
      exact ih hargument
  | more argument comma args ih _ =>
      rintro m next ⟨⟨hargument, -⟩, -⟩
      obtain ⟨first, ts, htokens, hfirst⟩ := ih hargument
      exact ⟨first, _, by rw [Phrase.tokens, htokens, List.cons_append], hfirst⟩

theorem complete_of_operand {c : Phrase .expression} (hrounds : c.rounds = 0) (hunused : c.usedComparison = false)
    (h : ∀ fuel m n next rest, c.Reads m next.type → 4 * c.tokens.length ≤ fuel + 1 →
      prefixExpression py fuel ⟨c.tokens ++ next :: rest, n⟩ =
        .ok (c.tree n, ⟨next :: rest, n + c.params⟩)) : Complete py c := by
  intro fuel m n next rest hreads hfuel
  rw [hrounds] at hfuel ⊢
  rw [hunused]
  exact expression_of_operand (h fuel m n next rest hreads hfuel)

/-- Every phrase that is read. -/
theorem complete (py : PyText) {k : Kind} (c : Phrase k) : Complete py c := by
  induction c with
  | atom a =>
      refine complete_of_operand rfl rfl fun fuel m n next rest hreads hfuel => ?_
      have hpos := (Phrase.atom a).rounds_lt
      obtain ⟨fuel, rfl⟩ : ∃ fuel', fuel = fuel' + 3 := ⟨fuel - 3, by omega⟩
      exact prefix_operand hreads.1 hreads.2
  | paren left inner right ih =>
      refine complete_of_operand rfl rfl fun fuel m n next rest hreads hfuel => ?_
      obtain ⟨hleft, ⟨hinner, hstops⟩, hright⟩ := hreads
      rw [Phrase.tokens, List.length_cons, List.length_append, List.length_singleton] at hfuel
      obtain ⟨fuel, rfl⟩ : ∃ fuel', fuel = fuel' + 2 := ⟨fuel - 2, by omega⟩
      have hsplit : (Phrase.paren left inner right).tokens ++ next :: rest =
          left :: (inner.tokens ++ right :: next :: rest) := by
        rw [Phrase.tokens, List.cons_append, List.append_assoc, List.singleton_append]
      rw [hsplit, prefix_of_type hleft (by decide) rfl, Parser.atom, peek_cons]
      simp only [bind, Except.bind, hleft, advance, List.tail_cons]
      rw [ih.whole hinner hstops (by omega)]
      simp only
      rw [expect_cons hright]
      rfl
  | call name left args right ih =>
      refine complete_of_operand rfl rfl fun fuel m n next rest hreads hfuel => ?_
      obtain ⟨hname, hleft, hargs, hright⟩ := hreads
      rw [Phrase.tokens, List.length_cons, List.length_cons, List.length_append, List.length_singleton] at hfuel
      obtain ⟨fuel, rfl⟩ : ∃ fuel', fuel = fuel' + 3 := ⟨fuel - 3, by omega⟩
      have hsplit : (Phrase.call name left args right).tokens ++ next :: rest =
          name :: left :: (args.tokens ++ right :: next :: rest) := by
        rw [Phrase.tokens, List.cons_append, List.cons_append, List.append_assoc, List.singleton_append]
      have hread := ih fuel n right (next :: rest) hargs (by omega)
      obtain ⟨first, ts, htokens, hfirst⟩ := args_head args hargs
      rw [hsplit, prefix_of_type hname (by decide) rfl, atom_call hname hleft, functionCall]
      rw [htokens, List.cons_append] at hread ⊢
      rw [peek_cons]
      simp only [bind, Except.bind]
      rw [if_neg hfirst, hread]
      simp only
      rw [expect_cons hright]
      rfl
  | not token operand ih =>
      refine complete_of_operand rfl rfl fun fuel m n next rest hreads hfuel => ?_
      obtain ⟨htoken, hoperand, hstops⟩ := hreads
      rw [Phrase.tokens, List.length_cons] at hfuel
      obtain ⟨fuel, rfl⟩ : ∃ fuel', fuel = fuel' + 1 := ⟨fuel - 1, by omega⟩
      rw [Phrase.tokens, List.cons_append, prefixExpression, peek_cons]
      simp only [bind, Except.bind]
      rw [if_pos htoken, advance, List.tail_cons, ih.whole hoperand hstops (by omega)]
      rfl
  | sign token operator operand ih =>
      refine complete_of_operand rfl rfl fun fuel m n next rest hreads hfuel => ?_
      obtain ⟨htoken, hoperand, hstops⟩ := hreads
      rw [Phrase.tokens, List.length_cons] at hfuel
      obtain ⟨fuel, rfl⟩ : ∃ fuel', fuel = fuel' + 1 := ⟨fuel - 1, by omega⟩
      have hnot : token.type ≠ .not := by
        intro hnot
        rw [hnot] at htoken
        cases htoken
      rw [Phrase.tokens, List.cons_append, prefixExpression, peek_cons]
      simp only [bind, Except.bind]
      rw [if_neg hnot, htoken]
      simp only
      rw [advance, List.tail_cons, ih.whole hoperand hstops (by omega)]
      rfl
  | binary left token operator right ihleft ihright =>
      intro fuel m n next rest hreads hfuel
      obtain ⟨power, htable, hle, hfree, hleft, hright, hstops⟩ := hreads
      have hrounds := left.rounds_lt
      rw [Phrase.tokens, Phrase.rounds, List.length_append, List.length_cons] at hfuel
      have hread := ihleft (fuel + 1) m n token (right.tokens ++ next :: rest) hleft (by omega)
      rw [Phrase.tokens, Phrase.rounds, List.append_assoc, List.cons_append]
      rw [show fuel + (left.rounds + 1) + 1 = fuel + 1 + left.rounds + 1 by omega, hread]
      have hoperand : expression py fuel (power + 1) ⟨right.tokens ++ next :: rest, n + left.params⟩ =
          .ok (right.tree (n + left.params), ⟨next :: rest, n + left.params + right.params⟩) :=
        ihright.whole hright hstops (by omega)
      rw [loop_binary htable hle hfree hoperand, Nat.add_assoc]
      rfl
  | isNull operand is_ negation null ih =>
      intro fuel m n next rest hreads hfuel
      obtain ⟨his, hle, hunused, hoperand, hnegation, hnull⟩ := hreads
      rw [Phrase.tokens, Phrase.rounds, List.length_append, List.length_cons] at hfuel
      have hread := ih (fuel + 1) m n is_ (negation.toList ++ null :: next :: rest) hoperand (by omega)
      rw [Phrase.tokens, Phrase.rounds, List.append_assoc, List.cons_append, List.append_assoc,
        List.singleton_append]
      rw [show fuel + (operand.rounds + 1) + 1 = fuel + 1 + operand.rounds + 1 by omega, hread, hunused,
        loop_isNull his hle hnegation hnull]
      rfl
  | one argument ih =>
      intro fuel n next rest hreads hfuel
      obtain ⟨⟨hargument, hstops⟩, hcomma⟩ := hreads
      rw [Phrase.tokens] at hfuel
      obtain ⟨fuel, rfl⟩ : ∃ fuel', fuel = fuel' + 1 := ⟨fuel - 1, by omega⟩
      rw [Phrase.tokens, arguments, ih.whole hargument hstops (by omega)]
      simp only [bind, Except.bind, peek_cons]
      rw [if_neg hcomma]
      rfl
  | more argument comma args ih ihargs =>
      intro fuel n next rest hreads hfuel
      obtain ⟨⟨hargument, hstops⟩, hcomma, hargs⟩ := hreads
      rw [Phrase.tokens, List.length_append, List.length_cons] at hfuel
      obtain ⟨fuel, rfl⟩ : ∃ fuel', fuel = fuel' + 1 := ⟨fuel - 1, by omega⟩
      rw [Phrase.tokens, List.append_assoc, List.cons_append, arguments, ih.whole hargument hstops (by omega)]
      simp only [bind, Except.bind, peek_cons]
      rw [if_pos hcomma, advance, List.tail_cons, ihargs fuel _ next rest hargs (by omega)]
      simp only
      rw [Nat.add_assoc]
      rfl

end Complete

/-! ## The accepted expressions -/

/-- A token that no expression goes on with. -/
structure Delimits (next : TokenType) : Prop where
  paren : next ≠ .leftParen
  dot : next ≠ .dot
  binds : bindingPower next = none

/-- `_expression` turns the tokens into the tree, and stops in front of `last`. -/
def Accepts (py : PyText) (ts : List Token) (last : Token) (rest : List Token) (n : Nat) (e : Expression) : Prop :=
  ∃ fuel count, expression py fuel 0 ⟨ts ++ last :: rest, n⟩ = .ok (e, ⟨last :: rest, count⟩)

/-- Wherever the tokens stand, the parser accepts them exactly if the grammar derives them, and
the tree is that of the grammar. -/
def MeetsGrammar (py : PyText) (ts : List Token) : Prop :=
  ∀ last rest n e, Delimits last.type →
    (Accepts py ts last rest n e ↔ ∃ c : Phrase .expression, Derives .or c ∧ c.tokens = ts ∧ e = c.tree n)

section Meets

variable {py : PyText} {ts rest : List Token} {last : Token} {n : Nat} {e : Expression}

/-- Which token ends an expression does not matter. -/
theorem reads_delimited {k : Kind} (c : Phrase k) : ∀ {m : Nat} {next next' : TokenType}, k = .expression →
    Delimits next' → c.Reads m next → c.Reads m next' := by
  induction c with
  | atom a =>
      rintro m next next' - hnext ⟨hfits, -⟩
      refine ⟨hfits, ?_⟩
      cases a with
      | column name => exact ⟨hnext.paren, hnext.dot⟩
      | _ => trivial
  | paren _ _ _ _ => exact fun _ _ h => h
  | call _ _ _ _ _ => exact fun _ _ h => h
  | not token operand ih =>
      rintro m next next' - hnext ⟨htoken, hoperand, -⟩
      exact ⟨htoken, ih rfl hnext hoperand, stops_of_none hnext.binds⟩
  | sign token operator operand ih =>
      rintro m next next' - hnext ⟨htoken, hoperand, -⟩
      exact ⟨htoken, ih rfl hnext hoperand, stops_of_none hnext.binds⟩
  | binary left token operator right _ ihright =>
      rintro m next next' - hnext ⟨power, htable, hle, hfree, hleft, hright, -⟩
      exact ⟨power, htable, hle, hfree, hleft, ihright rfl hnext hright, stops_of_none hnext.binds⟩
  | isNull _ _ _ _ _ => exact fun _ _ h => h
  | one _ _ => rintro _ _ _ ⟨⟩
  | more _ _ _ _ _ => rintro _ _ _ ⟨⟩

theorem delimits_eof : Delimits .eof := ⟨by decide, by decide, rfl⟩

/-- What is read is returned, wherever it stands. -/
theorem run_reading {c : Phrase .expression} (h : c.Reading ts) (hlast : Delimits last.type) :
    expression py (4 * ts.length) 0 ⟨ts ++ last :: rest, n⟩ = .ok (c.tree n, ⟨last :: rest, n + c.params⟩) := by
  obtain ⟨rfl, hreads⟩ := h
  exact (complete py c).whole (reads_delimited c rfl hlast hreads) (stops_of_none hlast.binds) le_rfl

theorem Accepts.reading (h : Accepts py ts last rest n e) :
    ∃ c : Phrase .expression, c.Reading ts ∧ e = c.tree n := by
  obtain ⟨fuel, count, h⟩ := h
  obtain ⟨c, next, htook, -, hreads, -⟩ := (sound py fuel).expression _ _ _ _ h
  exact ⟨c, ⟨(List.append_cancel_right htook.tokens).symm, reads_delimited c rfl delimits_eof hreads⟩, htook.value⟩

theorem reading_of_derives {c : Phrase .expression} (h : Derives .or c) : c.Reading c.tokens ∧ c.Placed := by
  have hclimbs := climbs_of_derives h
  exact ⟨⟨rfl, (hclimbs.whole delimits_eof.paren delimits_eof.dot delimits_eof.binds).1⟩, hclimbs.placed⟩

/-- Tokens are read in one way only, as far as the tree goes. -/
theorem tree_unique (py : PyText) {c d : Phrase .expression} (hc : c.Reading ts) (hd : d.Reading ts) (n : Nat) :
    c.tree n = d.tree n := by
  have hleft := @run_reading py ts [] ⟨.eof, "", none, 0⟩ n c hc delimits_eof
  have hright := @run_reading py ts [] ⟨.eof, "", none, 0⟩ n d hd delimits_eof
  rw [hleft] at hright
  exact (Prod.mk.inj (Except.ok.inj hright)).1

/-- The parser meets the grammar exactly on tokens that cannot be read, or can be read with every
operator in its place. -/
theorem meetsGrammar_iff (py : PyText) (ts : List Token) : MeetsGrammar py ts ↔
    ((∃ c : Phrase .expression, c.Reading ts) → ∃ c : Phrase .expression, c.Reading ts ∧ c.Placed) := by
  constructor
  · rintro hmeets ⟨c, hc⟩
    have haccepts : Accepts py ts ⟨.eof, "", none, 0⟩ [] 0 (c.tree 0) :=
      ⟨_, _, run_reading hc delimits_eof⟩
    obtain ⟨d, hd, rfl, -⟩ := (hmeets _ _ _ _ delimits_eof).mp haccepts
    exact ⟨d, reading_of_derives hd⟩
  · intro hplaced last rest n e hlast
    constructor
    · intro haccepts
      obtain ⟨c, hc, rfl⟩ := haccepts.reading
      obtain ⟨d, hd, hplace⟩ := hplaced ⟨c, hc⟩
      exact ⟨d, .looser (derives_of_reads hd.2 hplace) (or_le _), hd.1, tree_unique py hc hd n⟩
    · rintro ⟨c, hc, rfl, rfl⟩
      exact ⟨_, _, run_reading (reading_of_derives hc).1 hlast⟩

end Meets

/-! ## A chain behind a NOT -/

/-- `NOT a = b = c`. -/
def chained : List Token :=
  [⟨.not, "NOT", none, 0⟩, ⟨.identifier, "a", none, 4⟩, ⟨.eq, "=", none, 6⟩, ⟨.identifier, "b", none, 8⟩,
   ⟨.eq, "=", none, 10⟩, ⟨.identifier, "c", none, 12⟩]

/-- `(NOT a = b) = c`. -/
def chainedTree : Expression :=
  .binaryOp (.unaryOp .not (.binaryOp (.column "a" none) .eq (.column "b" none))) .eq (.column "c" none)

theorem first_of_paren {left right : Token} {inner : Phrase .expression} {m : Nat} {next : TokenType}
    {more : List Token} (h : (Phrase.paren left inner right).Reads m next) :
    (Phrase.paren left inner right).tokens ++ more ≠ chained := by
  intro htokens
  have hleft : left = ⟨.not, "NOT", none, 0⟩ := (List.cons.inj htokens).1
  have hparen := h.1
  rw [hleft] at hparen
  cases hparen

/-- A phrase without parentheses around it that negates. -/
theorem logical_of_tree {l : Phrase .expression} {m : Nat} {next : TokenType} {more : List Token} {x : Expression}
    (hreads : l.Reads m next) (htree : l.tree 0 = .unaryOp .not x) (htokens : l.tokens ++ more = chained) :
    l.IsLogical := by
  cases l with
  | atom a => cases a <;> cases htree
  | paren left inner right => exact absurd htokens (first_of_paren hreads)
  | call _ _ _ _ => cases htree
  | not _ _ => trivial
  | sign token operator operand =>
      cases htree
      obtain ⟨-, hoperator⟩ | ⟨-, hoperator⟩ := eq_of_unaryArithmeticOperators hreads.1
      · cases hoperator
      · cases hoperator
  | binary _ _ _ _ => cases htree
  | isNull _ _ _ _ => cases htree

/-- The grammar has no comparison of a negated comparison. -/
theorem not_derives_chained {c : Phrase .expression} (h : Derives .or c) (htokens : c.tokens = chained) :
    c.tree 0 ≠ chainedTree := by
  intro htree
  obtain ⟨⟨-, hreads⟩, hplaced⟩ := reading_of_derives h
  cases c with
  | atom a => cases a <;> cases htree
  | paren left inner right => exact first_of_paren hreads ((List.append_nil _).trans htokens)
  | call _ _ _ _ => cases htree
  | not _ _ => cases htree
  | sign _ _ _ => cases htree
  | isNull _ _ _ _ => cases htree
  | binary left token operator right =>
      obtain ⟨power, -, -, -, hleft, -⟩ := hreads
      obtain ⟨hl, hoperator, -⟩ := Expression.binaryOp.inj htree
      refine hplaced.2.2.2.2 ?_ (logical_of_tree hleft hl htokens)
      rw [hoperator]
      rfl

/-- Two comparisons are chained behind a NOT. -/
theorem chained_comparison_accepted :
    Accepts Tokenizer.latin1 chained ⟨.eof, "", none, 13⟩ [] 0 chainedTree ∧
      ¬ MeetsGrammar Tokenizer.latin1 chained := by
  have haccepts : Accepts Tokenizer.latin1 chained ⟨.eof, "", none, 13⟩ [] 0 chainedTree := ⟨24, 0, rfl⟩
  refine ⟨haccepts, fun hmeets => ?_⟩
  obtain ⟨c, hderives, htokens, htree⟩ := (hmeets _ _ _ _ delimits_eof).mp haccepts
  exact not_derives_chained hderives htokens htree.symm

end Parser

end QuillDb
