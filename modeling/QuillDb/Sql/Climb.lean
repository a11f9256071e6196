/-
  Sql/Climb.lean --- the phrases that climbing reads against those of the grammar.

  Source: `_expression` of `quilldb/sql/parser.py`.

  The documented phrases are the phrases read with every operator in its place.
-/
import QuillDb.Sql.Grammar

set_option autoImplicit false

namespace QuillDb

/-! ## The two tables -/

theorem binaryOperators_token (operator : BinaryOperator) :
    binaryOperators operator.token = some (operator.tier.power, operator) := by
  cases operator <;> rfl

theorem eq_of_binaryOperators {type : TokenType} {power : Nat} {operator : BinaryOperator}
    (h : binaryOperators type = some (power, operator)) :
    type = operator.token ∧ power = operator.tier.power := by
  unfold binaryOperators at h
  split at h
  case h_15 => cases h
  all_goals
    cases h
    exact ⟨rfl, rfl⟩

theorem bindingPower_token (operator : BinaryOperator) :
    bindingPower operator.token = some operator.tier.power := by
  cases operator <;> rfl

/-- A token that binds is an operator or an IS. -/
theorem bindingPower_cases {type : TokenType} {power : Nat} (h : bindingPower type = some power) :
    ∃ operator : BinaryOperator, power = operator.tier.power := by
  unfold bindingPower at h
  split at h
  · cases h
    exact ⟨.eq, rfl⟩
  · obtain ⟨⟨power', operator⟩, htable, rfl⟩ := Option.map_eq_some_iff.mp h
    exact ⟨operator, (eq_of_binaryOperators htable).2⟩

theorem power_ne (operator : BinaryOperator) :
    operator.tier.power ≠ notBindingPower ∧ operator.tier.power ≠ unaryArithmeticBindingPower := by
  cases operator <;> decide

theorem power_next (operator : BinaryOperator) : operator.tier.power < operator.tier.next.power := by
  cases operator <;> decide

/-- There is no tier between one and the next. -/
theorem next_power_le {a b : Tier} (h : a.power < b.power) : a.next.power ≤ b.power := by
  revert h
  cases a <;> cases b <;> decide

theorem tier_eq_comparison {operator : BinaryOperator} (h : operator.tier.power = comparisonBindingPower) :
    operator.tier = .comparison := by
  revert h
  cases operator <;> decide

/-! ## Every documented phrase is read -/

namespace Phrase

/-- The tokens that can come behind a phrase inside of a larger one. -/
def Follows : (k : Kind) → Tier → TokenType → Prop
  | .expression, tier, next =>
      next ≠ .leftParen ∧ next ≠ .dot ∧ ∀ power, bindingPower next = some power → power ≤ tier.power
  | .arguments, _, next => next = .rightParen

end Phrase

/-- A phrase of a tier, as climbing sees it. -/
structure Climbs (tier : Tier) {k : Kind} (c : Phrase k) : Prop where
  tighter : tier.power ≤ c.tier.power
  placed : c.Placed
  unused : Tier.comparison.power < c.tier.power → c.usedComparison = false
  reads : ∀ m next, m ≤ c.tier.power → Phrase.Follows k c.tier next → c.Reads m next

/-- Nothing is behind an expression in front of such a token. -/
theorem stops_of_none {m : Nat} {used : Bool} {next : TokenType} (h : bindingPower next = none) :
    Stops m used next := by
  rintro power hpower
  rw [h] at hpower
  cases hpower

theorem follows_of_none {tier : Tier} {next : TokenType} (hparen : next ≠ .leftParen) (hdot : next ≠ .dot)
    (h : bindingPower next = none) : Phrase.Follows .expression tier next := by
  refine ⟨hparen, hdot, fun power hpower => ?_⟩
  rw [h] at hpower
  cases hpower

namespace Climbs

variable {tier : Tier} {c : Phrase .expression} {next : TokenType}

/-- An expression that nothing else can be a part of. -/
theorem whole (h : Climbs tier c) (hparen : next ≠ .leftParen) (hdot : next ≠ .dot)
    (hnone : bindingPower next = none) : c.Reads 0 next ∧ Stops 0 c.usedComparison next :=
  ⟨h.reads 0 next (Nat.zero_le _) (follows_of_none hparen hdot hnone), stops_of_none hnone⟩

/-- An operand of a tighter tier than what comes next. -/
theorem operand {m : Nat} (h : Climbs tier c) (hm : m ≤ tier.power) (hparen : next ≠ .leftParen)
    (hdot : next ≠ .dot) (hnext : ∀ power, bindingPower next = some power → power < m) :
    c.Reads m next ∧ Stops m c.usedComparison next := by
  have hle := h.tighter
  refine ⟨h.reads m next (hm.trans hle) ⟨hparen, hdot, fun power hpower => ?_⟩, fun power hpower => ?_⟩
  · exact (hnext power hpower).le.trans (hm.trans hle)
  · exact .inl (hnext power hpower)

end Climbs

theorem token_ne (operator : BinaryOperator) : operator.token ≠ .leftParen ∧ operator.token ≠ .dot := by
  cases operator <;> decide

theorem climbs_sign {token : Token} {operator : UnaryOperator} {operand : Phrase .expression}
    (htoken : unaryArithmeticOperators token.type = some operator) (h : Climbs .sign operand) :
    Climbs .sign (.sign token operator operand) where
  tighter := le_rfl
  placed := by
    refine ⟨h.placed, fun hnegation => ?_⟩
    have htighter := h.tighter
    cases operand with
    | not _ _ =>
        have hnot : Tier.sign.power ≤ Tier.not.power := htighter
        exact absurd hnot (by decide)
    | _ => exact hnegation
  unused _ := rfl
  reads m next _ hfollows := by
    obtain ⟨hparen, hdot, hnext⟩ := hfollows
    refine ⟨htoken, h.operand le_rfl hparen hdot fun power hpower => ?_⟩
    obtain ⟨operator, rfl⟩ := bindingPower_cases hpower
    exact lt_of_le_of_ne (hnext _ hpower) (power_ne operator).2

theorem climbs_not {token : Token} {operand : Phrase .expression} (htoken : token.type = .not)
    (h : Climbs .not operand) : Climbs .not (.not token operand) where
  tighter := le_rfl
  placed := h.placed
  unused h := by
    have hnot : Tier.comparison.power < Tier.not.power := h
    exact absurd hnot (by decide)
  reads m next _ hfollows := by
    obtain ⟨hparen, hdot, hnext⟩ := hfollows
    refine ⟨htoken, h.operand le_rfl hparen hdot fun power hpower => ?_⟩
    obtain ⟨operator, rfl⟩ := bindingPower_cases hpower
    exact lt_of_le_of_ne (hnext _ hpower) (power_ne operator).1

theorem leftTier_power (operator : BinaryOperator) : operator.tier.power ≤ operator.leftTier.power := by
  cases operator <;> decide

/-- Nothing logical, and no test for NULL, is of a tier above the comparisons. -/
theorem not_logical {c : Phrase .expression} (h : Tier.comparison.power < c.tier.power) :
    ¬ c.IsLogical ∧ ¬ c.IsNullTest := by
  cases c with
  | not _ _ =>
      have hnot : Tier.comparison.power < Tier.not.power := h
      exact absurd hnot (by decide)
  | isNull _ _ _ _ => exact absurd h (lt_irrefl Tier.comparison.power)
  | binary _ _ operator _ =>
      have htight : Tier.comparison.power < operator.tier.power := h
      refine ⟨?_, id⟩
      rintro (rfl | rfl)
      · exact absurd htight (by decide)
      · exact absurd htight (by decide)
  | _ => exact ⟨id, id⟩

theorem climbs_binary {token : Token} {operator : BinaryOperator} {left right : Phrase .expression}
    (htoken : token.type = operator.token) (hleft : Climbs operator.leftTier left)
    (hright : Climbs operator.tier.next right) : Climbs operator.tier (.binary left token operator right) where
  tighter := le_rfl
  placed := by
    refine ⟨hleft.placed, hright.placed, fun htight hnegation => ?_, fun htight => ?_, fun hcomparison => ?_⟩
    · have htighter := (htight.trans_lt (power_next operator)).trans_le hright.tighter
      cases right with
      | not _ _ =>
          have hnot : Tier.comparison.power < Tier.not.power := htighter
          exact absurd hnot (by decide)
      | _ => exact hnegation
    · exact (not_logical (htight.trans_le ((leftTier_power operator).trans hleft.tighter))).2
    · have htighter := hleft.tighter
      rw [BinaryOperator.leftTier, if_pos hcomparison] at htighter
      exact (not_logical (lt_of_lt_of_le (by decide) htighter)).1
  unused htight := by
    rw [Phrase.usedComparison, hleft.unused (htight.trans_le ((leftTier_power operator).trans hleft.tighter)),
      Bool.false_or]
    refine decide_eq_false fun hcomparison => ?_
    rw [Phrase.tier, hcomparison] at htight
    exact lt_irrefl _ htight
  reads m next hm hfollows := by
    obtain ⟨hparen, hdot, hnext⟩ := hfollows
    obtain ⟨hparen', hdot'⟩ := token_ne operator
    have hpower := (leftTier_power operator).trans hleft.tighter
    refine ⟨operator.tier.power, htoken ▸ binaryOperators_token operator, hm, ?_, ?_, ?_⟩
    · rintro ⟨hcomparison, hused⟩
      have htighter := hleft.tighter
      rw [BinaryOperator.leftTier, if_pos (tier_eq_comparison hcomparison)] at htighter
      rw [hleft.unused (lt_of_lt_of_le (by decide) htighter)] at hused
      cases hused
    · refine hleft.reads m _ (hm.trans hpower) ⟨htoken ▸ hparen', htoken ▸ hdot', fun power hbinds => ?_⟩
      rw [htoken, bindingPower_token] at hbinds
      exact Option.some.inj hbinds ▸ hpower
    · exact hright.operand (power_next operator) hparen hdot fun power hbinds =>
        Nat.lt_succ_of_le (hnext power hbinds)

theorem climbs_isNull {operand : Phrase .expression} {is_ null : Token} {negation : Option Token}
    (h : Climbs .sum operand) (his : is_.type = .is) (hnegation : ∀ t ∈ negation, t.type = .not)
    (hnull : null.type = .null) : Climbs .comparison (.isNull operand is_ negation null) where
  tighter := le_rfl
  placed := ⟨h.placed, (not_logical (lt_of_lt_of_le (by decide) h.tighter)).1⟩
  unused h := absurd h (lt_irrefl _)
  reads m next hm _ := by
    have htight : Tier.comparison.power < operand.tier.power := lt_of_lt_of_le (by decide) h.tighter
    refine ⟨his, hm, h.unused htight, h.reads m _ (hm.trans htight.le) ?_, hnegation, hnull⟩
    rw [his]
    refine ⟨by decide, by decide, fun power hpower => ?_⟩
    exact Option.some.inj hpower ▸ htight.le

/-- A phrase of the grammar, step by step. -/
theorem climbs_of_derives {tier : Tier} {k : Kind} {c : Phrase k} (h : Derives tier c) : Climbs tier c := by
  induction h with
  | looser _ hle ih => exact ⟨hle.trans ih.tighter, ih.placed, ih.unused, ih.reads⟩
  | @atom a h =>
      refine ⟨le_rfl, trivial, fun _ => rfl, fun m next _ hfollows => ⟨h, ?_⟩⟩
      cases a with
      | column name => exact ⟨hfollows.1, hfollows.2.1⟩
      | _ => trivial
  | paren hleft _ hright ih =>
      refine ⟨le_rfl, ih.placed, fun _ => rfl, fun m next _ _ => ⟨hleft, ?_, hright⟩⟩
      rw [hright]
      exact ih.whole (by decide) (by decide) rfl
  | call hname hleft _ hright ih =>
      refine ⟨le_rfl, ih.placed, fun _ => rfl, fun m next _ _ => ⟨hname, hleft, ?_, hright⟩⟩
      exact ih.reads 0 _ (Nat.zero_le _) hright
  | plus htoken _ ih => exact climbs_sign (by rw [htoken]; rfl) ih
  | minus htoken _ ih => exact climbs_sign (by rw [htoken]; rfl) ih
  | binary htoken _ _ ihleft ihright => exact climbs_binary htoken ihleft ihright
  | isNull _ his hnegation hnull ih => exact climbs_isNull ih his hnegation hnull
  | not htoken _ ih => exact climbs_not htoken ih
  | one _ ih =>
      refine ⟨le_rfl, ih.placed, fun _ => rfl, fun m next _ hfollows => ?_⟩
      obtain rfl : next = .rightParen := hfollows
      exact ⟨ih.whole (by decide) (by decide) rfl, by decide⟩
  | more _ hcomma _ ih ihargs =>
      refine ⟨le_rfl, ⟨ih.placed, ihargs.placed⟩, fun _ => rfl, fun m next _ hfollows => ⟨?_, hcomma, ?_⟩⟩
      · rw [hcomma]
        exact ih.whole (by decide) (by decide) rfl
      · exact ihargs.reads 0 next (Nat.zero_le _) hfollows

/-! ## What is read with every operator in its place -/

theorem power_lt (operator : BinaryOperator) : operator.tier.power < Tier.sign.power := by
  cases operator <;> decide

theorem power_lt_atom (operator : BinaryOperator) : operator.tier.power < Tier.atom.power :=
  (power_lt operator).trans (by decide)

/-- Neither logical nor used up by a comparison. -/
theorem tight_of_unused {c : Phrase .expression} (hlogical : ¬ c.IsLogical) (hused : c.usedComparison = false) :
    Tier.comparison.power < c.tier.power := by
  cases c with
  | not _ _ => exact absurd trivial hlogical
  | isNull _ _ _ _ => cases hused
  | binary _ _ operator _ =>
      have hne : operator.tier ≠ .comparison := of_decide_eq_false (Bool.or_eq_false_iff.mp hused).2
      obtain ⟨hand, hor⟩ := not_or.mp hlogical
      change _ < operator.tier.power
      cases operator <;> first | contradiction | decide
  | _ => exact of_decide_eq_true rfl

/-- The left operand of an operator that is in its place. -/
theorem left_tier {left : Phrase .expression} {m : Nat} {operator : BinaryOperator} {next : TokenType}
    (hnext : bindingPower next = some operator.tier.power) (h : left.Reads m next)
    (hused : ¬ (operator.tier.power = comparisonBindingPower ∧ left.usedComparison = true))
    (hnull : Tier.comparison.power < operator.tier.power → ¬ left.IsNullTest)
    (hlogical : operator.tier = .comparison → ¬ left.IsLogical) :
    operator.leftTier.power ≤ left.tier.power := by
  rw [BinaryOperator.leftTier]
  by_cases hcomparison : operator.tier = .comparison
  · rw [if_pos hcomparison]
    refine next_power_le (tight_of_unused (hlogical hcomparison) ?_)
    exact Bool.not_eq_true _ |>.mp fun h => hused ⟨congrArg Tier.power hcomparison, h⟩
  · rw [if_neg hcomparison]
    have hne : operator.tier.power ≠ comparisonBindingPower := fun h => hcomparison (tier_eq_comparison h)
    cases left with
    | not _ _ =>
        -- the operand of NOT was over in front of the operator
        exact ((h.2.2 _ hnext).resolve_right fun h => hne h.1).le
    | binary _ _ operator' _ =>
        obtain ⟨power, htable, -, -, -, -, hstops⟩ := h
        have hlt := (hstops _ hnext).resolve_right fun h => hne h.1
        exact (eq_of_binaryOperators htable).2 ▸ Nat.le_of_lt_succ hlt
    | isNull _ _ _ _ => exact Nat.le_of_not_lt fun hlt => hnull hlt trivial
    | sign _ _ _ => exact (power_lt operator).le
    | atom _ => exact (power_lt_atom operator).le
    | paren _ _ _ => exact (power_lt_atom operator).le
    | call _ _ _ _ => exact (power_lt_atom operator).le

/-- The right operand of an operator that is in its place. -/
theorem right_tier {right : Phrase .expression} {operator : BinaryOperator} {next : TokenType}
    (h : right.Reads (operator.tier.power + 1) next)
    (hnegation : Tier.comparison.power ≤ operator.tier.power → ¬ right.IsNegation) :
    operator.tier.next.power ≤ right.tier.power := by
  refine next_power_le ?_
  cases right with
  | not _ _ =>
      have hle : operator.tier.power < Tier.not.power ∨ Tier.comparison.power ≤ operator.tier.power := by
        cases operator <;> decide
      exact hle.resolve_right fun hle => hnegation hle trivial
  | binary _ _ operator' _ =>
      obtain ⟨power, htable, hle, -⟩ := h
      exact (eq_of_binaryOperators htable).2 ▸ hle
  | isNull _ _ _ _ => exact h.2.1
  | sign _ _ _ => exact power_lt operator
  | atom _ => exact power_lt_atom operator
  | paren _ _ _ => exact power_lt_atom operator
  | call _ _ _ _ => exact power_lt_atom operator

theorem or_le (tier : Tier) : Tier.or.power ≤ tier.power := by
  cases tier <;> decide

theorem args_tier (args : Phrase .arguments) : args.tier = .or := by
  cases args <;> rfl

theorem eq_of_unaryArithmeticOperators {type : TokenType} {operator : UnaryOperator}
    (h : unaryArithmeticOperators type = some operator) :
    type = .plus ∧ operator = .plus ∨ type = .minus ∧ operator = .minus := by
  unfold unaryArithmeticOperators at h
  split at h
  · cases h
    exact .inl ⟨rfl, rfl⟩
  · cases h
    exact .inr ⟨rfl, rfl⟩
  · cases h

/-- What is read behind a NOT. -/
theorem not_tier {operand : Phrase .expression} {next : TokenType} (h : operand.Reads notBindingPower next) :
    Tier.not.power ≤ operand.tier.power := by
  cases operand with
  | binary _ _ operator _ =>
      obtain ⟨power, htable, hle, -⟩ := h
      exact (eq_of_binaryOperators htable).2 ▸ hle
  | _ => exact of_decide_eq_true rfl

/-- What is read behind a sign. -/
theorem sign_tier {operand : Phrase .expression} {next : TokenType}
    (h : operand.Reads unaryArithmeticBindingPower next) (hnegation : ¬ operand.IsNegation) :
    Tier.sign.power ≤ operand.tier.power := by
  cases operand with
  | not _ _ => exact absurd trivial hnegation
  | binary _ _ operator _ =>
      obtain ⟨power, htable, hle, -⟩ := h
      exact (eq_of_binaryOperators htable).2 ▸ hle
  | isNull _ _ _ _ => exact absurd h.2.1 (by decide)
  | _ => exact of_decide_eq_true rfl

/-- What is read with every operator in its place is a phrase of the grammar. -/
theorem derives_of_reads {k : Kind} {c : Phrase k} : ∀ {m : Nat} {next : TokenType}, c.Reads m next → c.Placed →
    Derives c.tier c := by
  induction c with
  | atom a => exact fun h _ => .atom h.1
  | paren left inner right ih =>
      rintro m next ⟨hleft, ⟨hinner, -⟩, hright⟩ hplaced
      exact .paren hleft (.looser (ih hinner hplaced) (or_le _)) hright
  | call name left args right ih =>
      rintro m next ⟨hname, hleft, hargs, hright⟩ hplaced
      exact .call hname hleft (args_tier args ▸ ih hargs hplaced) hright
  | not token operand ih =>
      rintro m next ⟨htoken, hoperand, -⟩ hplaced
      exact .not htoken (.looser (ih hoperand hplaced) (not_tier hoperand))
  | sign token operator operand ih =>
      rintro m next ⟨htoken, hoperand, -⟩ ⟨hplaced, hnegation⟩
      have hsign : Derives .sign operand := .looser (ih hoperand hplaced) (sign_tier hoperand hnegation)
      obtain ⟨hplus, rfl⟩ | ⟨hminus, rfl⟩ := eq_of_unaryArithmeticOperators htoken
      · exact .plus hplus hsign
      · exact .minus hminus hsign
  | binary left token operator right ihleft ihright =>
      rintro m next ⟨power, htable, hm, hused, hleft, hright, -⟩ ⟨hpleft, hpright, hnegation, hnull, hlogical⟩
      obtain ⟨htoken, rfl⟩ := eq_of_binaryOperators htable
      have hnext : bindingPower token.type = some operator.tier.power := htoken ▸ bindingPower_token operator
      exact .binary htoken (.looser (ihleft hleft hpleft) (left_tier hnext hleft hused hnull hlogical))
        (.looser (ihright hright hpright) (right_tier hright hnegation))
  | isNull operand is_ negation null ih =>
      rintro m next ⟨his, hm, hused, hoperand, hnegation, hnull⟩ ⟨hplaced, hlogical⟩
      exact .isNull (.looser (ih hoperand hplaced) (next_power_le (tight_of_unused hlogical hused))) his hnegation
        hnull
  | one argument ih =>
      rintro m next ⟨⟨hargument, -⟩, -⟩ hplaced
      exact .one (.looser (ih hargument hplaced) (or_le _))
  | more argument comma args ih ihargs =>
      rintro m next ⟨⟨hargument, -⟩, hcomma, hargs⟩ ⟨hplaced, hplacedArgs⟩
      exact .more (.looser (ih hargument hplaced) (or_le _)) hcomma (args_tier args ▸ ihargs hargs hplacedArgs)

end QuillDb
