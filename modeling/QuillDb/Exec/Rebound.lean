/-
  Exec/Rebound.lean --- a text bound to other values.

  Source: `bind_select`, `_expression`, `_bind_order_by` and `_resolve_order_by_key` of
  `quilldb/sql/binder.py`.

  From one table and one text the binder makes statements of one form, whatever the values
  of the parameters are, as long as no parameter is a pattern.
-/
import QuillDb.Plan.Forms
import QuillDb.Sql.BindSelect

set_option autoImplicit false

namespace QuillDb

open Prog Fallible

/-- Statements that the planner does not tell apart. -/
structure BoundSelect.Alike (a b : BoundSelect) : Prop where
  table : a.table = b.table
  condition : a.where_.map BoundExpression.form = b.where_.map BoundExpression.form
  keys : ∀ keys keys', orderBySortKeys a.expressions a.hiddenOrderBy a.orderBy = .ok keys →
    orderBySortKeys b.expressions b.hiddenOrderBy b.orderBy = .ok keys' →
    keys.map SortKey.form = keys'.map SortKey.form

/-- No parameter is a pattern. -/
def Ast.Expression.FixedPatterns : Ast.Expression → Prop
  | .unaryOp _ operand => operand.FixedPatterns
  | .binaryOp left operator right =>
      left.FixedPatterns ∧ right.FixedPatterns ∧ (operator = .like → ∀ i, right ≠ .parameter i)
  | .isNull operand _ => operand.FixedPatterns
  | .literal _ | .column _ _ | .parameter _ | .functionCall _ _ _ => True

/-! ## Equal expressions -/

theorem text_pyEq {text : String} {v : Value} (h : (Value.text text).pyEq v = true) : v = .text text := by
  cases v with
  | text text' =>
      have hsame : text = text' := by simpa [Value.pyEq] using h
      rw [hsame]
  | _ => cases h

/-- Patterns that are equal. -/
theorem patternForm_of_pyEq {a b : BoundExpression} (h : a.pyEq b = true) (hform : a.form = b.form) :
    patternForm a a.form = patternForm b b.form := by
  have hliteral : ∀ {v w : Value}, (v = w ∨ v.pyEq w = true) →
      patternForm (.literal v) (.literal .null) = patternForm (.literal w) (.literal .null) := by
    intro v w hvw
    rcases hvw with rfl | hvw
    · rfl
    · cases v with
      | text text => rw [text_pyEq hvw]
      | _ => cases w <;> first | rfl | cases hvw
  cases a with
  | literal v =>
      cases b with
      | literal w => exact hliteral (by simpa [BoundExpression.pyEq] using h)
      | _ => cases h
  | _ => cases b <;> first | exact hform | cases h

/-- Expressions that are equal have one form. -/
theorem form_of_pyEq : (a b : BoundExpression) → a.pyEq b = true → a.form = b.form
  | .literal _, .literal _, _ => rfl
  | .column c, .column d, h => by
      have hsame : c = d := by simpa [BoundExpression.pyEq] using h
      rw [hsame]
  | .unaryOp operator operand, .unaryOp operator' operand', h => by
      simp only [BoundExpression.pyEq, Bool.and_eq_true, decide_eq_true_eq] at h
      rw [BoundExpression.form, BoundExpression.form, h.1, form_of_pyEq operand operand' h.2]
  | .binaryOp left operator right, .binaryOp left' operator' right', h => by
      simp only [BoundExpression.pyEq, Bool.and_eq_true, decide_eq_true_eq] at h
      obtain ⟨⟨hleft, rfl⟩, hright⟩ := h
      have hform := form_of_pyEq right right' hright
      rw [BoundExpression.form, BoundExpression.form, form_of_pyEq left left' hleft, patternForm_of_pyEq hright hform,
        hform]
  | .isNull operand negated, .isNull operand' negated', h => by
      simp only [BoundExpression.pyEq, Bool.and_eq_true, decide_eq_true_eq] at h
      rw [BoundExpression.form, BoundExpression.form, h.2, form_of_pyEq operand operand' h.1]

/-! ## Two bindings -/

section Rebound

variable {casefold : String → String} {getTable : String → Except DbError TableSchema}
  {parameters parameters' : List Value} {table : TableSchema}

/-- A column is bound the same way every time. -/
theorem column_bound {name : String} {qualifier : Option String} {e : BoundExpression} {c c₁ : List Nat}
    (h : Binder.expression casefold parameters table (.column name qualifier) c = (.ok e, c₁)) :
    ∃ i column, table.columnIndex casefold name = .ok i ∧ table.columns[i]? = some column ∧
      e = .column ⟨i, column.name, column.dataType, 0⟩ := by
  obtain ⟨i, _, hi, h⟩ := exists_of_bind_ok h
  rw [lift_apply] at hi
  cases hcolumn : table.columns[i]? with
  | none =>
      rw [hcolumn] at h
      cases h
  | some column =>
      rw [hcolumn] at h
      cases h
      exact ⟨i, column, congrArg Prod.fst hi, hcolumn, rfl⟩

/-- A pattern that is no parameter. -/
theorem patternForm_bound {ast : Ast.Expression} (hfixed : ∀ i, ast ≠ .parameter i) {e e' : BoundExpression}
    {c c₁ c' c₁' : List Nat} (h : Binder.expression casefold parameters table ast c = (.ok e, c₁))
    (h' : Binder.expression casefold parameters' table ast c' = (.ok e', c₁')) (hform : e.form = e'.form) :
    patternForm e e.form = patternForm e' e'.form := by
  have hplain : (∀ v, e ≠ .literal v) → (∀ v, e' ≠ .literal v) → patternForm e e.form = patternForm e' e'.form := by
    intro hne hne'
    unfold patternForm
    split
    · exact absurd rfl (hne _)
    · split
      · exact absurd rfl (hne' _)
      · exact hform
  cases ast with
  | literal value =>
      cases h
      cases h'
      rfl
  | parameter i => exact absurd rfl (hfixed i)
  | column name qualifier =>
      obtain ⟨_, _, -, -, rfl⟩ := column_bound h
      obtain ⟨_, _, -, -, rfl⟩ := column_bound h'
      exact hplain nofun nofun
  | unaryOp operator operand =>
      obtain ⟨_, _, -, h⟩ := exists_of_bind_ok h
      obtain ⟨_, _, -, h'⟩ := exists_of_bind_ok h'
      cases h
      cases h'
      exact hplain nofun nofun
  | binaryOp left operator right =>
      obtain ⟨_, _, -, h⟩ := exists_of_bind_ok h
      obtain ⟨_, _, -, h⟩ := exists_of_bind_ok h
      obtain ⟨_, _, -, h'⟩ := exists_of_bind_ok h'
      obtain ⟨_, _, -, h'⟩ := exists_of_bind_ok h'
      cases h
      cases h'
      exact hplain nofun nofun
  | isNull operand negated =>
      obtain ⟨_, _, -, h⟩ := exists_of_bind_ok h
      obtain ⟨_, _, -, h'⟩ := exists_of_bind_ok h'
      cases h
      cases h'
      exact hplain nofun nofun
  | functionCall name args star => cases h

/-- Bindings of an expression have one form. -/
theorem expression_form : (ast : Ast.Expression) → ast.FixedPatterns →
    ∀ {e e' : BoundExpression} {c c₁ c' c₁' : List Nat},
    Binder.expression casefold parameters table ast c = (.ok e, c₁) →
      Binder.expression casefold parameters' table ast c' = (.ok e', c₁') → e.form = e'.form
  | .literal value, _, _, _, _, _, _, _, h, h' => by
      cases h
      cases h'
      rfl
  | .parameter index, _, _, _, _, _, _, _, h, h' => by
      obtain ⟨value, _, -, h⟩ := exists_of_bind_ok h
      obtain ⟨value', _, -, h'⟩ := exists_of_bind_ok h'
      cases h
      cases h'
      rfl
  | .column name qualifier, _, _, _, _, _, _, _, h, h' => by
      obtain ⟨i, column, hi, hcolumn, rfl⟩ := column_bound h
      obtain ⟨i', column', hi', hcolumn', rfl⟩ := column_bound h'
      obtain rfl := Except.ok.inj (hi.symm.trans hi')
      obtain rfl := Option.some.inj (hcolumn.symm.trans hcolumn')
      rfl
  | .unaryOp operator operand, hfixed, _, _, _, _, _, _, h, h' => by
      obtain ⟨bound, _, hbound, h⟩ := exists_of_bind_ok h
      obtain ⟨bound', _, hbound', h'⟩ := exists_of_bind_ok h'
      cases h
      cases h'
      rw [BoundExpression.form, BoundExpression.form, expression_form operand hfixed hbound hbound']
  | .binaryOp left operator right, hfixed, _, _, _, _, _, _, h, h' => by
      obtain ⟨l, _, hl, h⟩ := exists_of_bind_ok h
      obtain ⟨r, _, hr, h⟩ := exists_of_bind_ok h
      obtain ⟨l', _, hl', h'⟩ := exists_of_bind_ok h'
      obtain ⟨r', _, hr', h'⟩ := exists_of_bind_ok h'
      cases h
      cases h'
      obtain ⟨hleft, hright, hpattern⟩ := hfixed
      have hform := expression_form right hright hr hr'
      rw [BoundExpression.form, BoundExpression.form, expression_form left hleft hl hl']
      split
      · rename_i hlike
        rw [patternForm_bound (hpattern hlike) hr hr' hform]
      · rw [hform]
  | .isNull operand negated, hfixed, _, _, _, _, _, _, h, h' => by
      obtain ⟨bound, _, hbound, h⟩ := exists_of_bind_ok h
      obtain ⟨bound', _, hbound', h'⟩ := exists_of_bind_ok h'
      cases h
      cases h'
      rw [BoundExpression.form, BoundExpression.form, expression_form operand hfixed hbound hbound']
  | .functionCall name args star, _, _, _, _, _, _, _, h, _ => by cases h

/-- The select list. -/
theorem selectList_form {list : Option (List Ast.Expression)} (hfixed : ∀ es ∈ list, ∀ e ∈ es, e.FixedPatterns)
    {produced produced' : List BoundExpression} {c c₁ c' c₁' : List Nat}
    (h : Binder.selectList casefold parameters table list c = (.ok produced, c₁))
    (h' : Binder.selectList casefold parameters' table list c' = (.ok produced', c₁')) :
    produced.map BoundExpression.form = produced'.map BoundExpression.form := by
  cases list with
  | none =>
      cases h
      cases h'
      rfl
  | some es =>
      replace hfixed := hfixed es rfl
      change Binder.expressions casefold parameters table es c = _ at h
      change Binder.expressions casefold parameters' table es c' = _ at h'
      induction es generalizing produced produced' c c' with
      | nil =>
          cases h
          cases h'
          rfl
      | cons ast es ih =>
          obtain ⟨e, _, he, h⟩ := exists_of_bind_ok h
          obtain ⟨rest, _, hrest, h⟩ := exists_of_bind_ok h
          obtain ⟨e', _, he', h'⟩ := exists_of_bind_ok h'
          obtain ⟨rest', _, hrest', h'⟩ := exists_of_bind_ok h'
          cases h
          cases h'
          rw [List.map_cons, List.map_cons, expression_form ast (hfixed ast (List.mem_cons_self ..)) he he',
            ih (fun e he => hfixed e (List.mem_cons_of_mem _ he)) hrest hrest']

/-! ## ORDER BY -/

/-- The expression a key of ORDER BY stands for. -/
def Resolved (casefold : String → String) (parameters : List Value) (table : TableSchema)
    (produced : List BoundExpression) (item : Ast.OrderKey) (e : BoundExpression) : Prop :=
  (∃ ordinal, item.expression = .literal (.int ordinal) ∧ produced[(ordinal - 1).toNat]? = some e) ∨
    (∀ ordinal, item.expression ≠ .literal (.int ordinal)) ∧ ∃ bound c c₁,
      Binder.expression casefold parameters table item.expression c = (.ok bound, c₁) ∧ e.form = bound.form

theorem resolveOrderByKey_resolved {produced hidden hidden' : List BoundExpression} {item : Ast.OrderKey}
    {key : BoundOrderKey} {c c₁ : List Nat}
    (h : Binder.resolveOrderByKey casefold parameters table produced hidden item c = (.ok (key, hidden'), c₁)) :
    hidden <+: hidden' ∧ key.descending = item.descending ∧
      ∃ e, (produced ++ hidden')[key.index]? = some e ∧ Resolved casefold parameters table produced item e := by
  generalize hprogram : Binder.resolveOrderByKey casefold parameters table produced hidden item = program at h
  unfold Binder.resolveOrderByKey at hprogram
  split at hprogram
  · rename_i ordinal hordinal
    rw [← hprogram] at h
    obtain ⟨hrange, h⟩ := of_raiseIf_bind_ok h
    cases h
    have hlt : (ordinal - 1).toNat < produced.length := by omega
    have hget := List.getElem?_eq_getElem hlt
    refine ⟨List.prefix_rfl, rfl, produced[(ordinal - 1).toNat], ?_, .inl ⟨ordinal, hordinal, hget⟩⟩
    rw [List.getElem?_append_left hlt, hget]
  · rename_i hother
    rw [← hprogram] at h
    obtain ⟨bound, _, hbound, h⟩ := exists_of_bind_ok h
    have hresolved : ∀ e : BoundExpression, e.form = bound.form →
        Resolved casefold parameters table produced item e :=
      fun e he => .inr ⟨hother, bound, _, _, hbound, he⟩
    cases hfind : produced.findIdx? fun expression => expression.pyEq bound with
    | some i =>
        rw [hfind] at h
        cases h
        obtain ⟨hlt, hequal, -⟩ := List.findIdx?_eq_some_iff_getElem.mp hfind
        refine ⟨List.prefix_rfl, rfl, produced[i], ?_, hresolved _ (form_of_pyEq _ _ hequal)⟩
        rw [List.getElem?_append_left hlt, List.getElem?_eq_getElem hlt]
    | none =>
        rw [hfind] at h
        cases h
        refine ⟨List.prefix_append .., rfl, bound, ?_, hresolved _ rfl⟩
        rw [← List.append_assoc, List.getElem?_append_right (by rw [List.length_append]), List.length_append,
          Nat.sub_self]
        rfl

theorem bindOrderBy_resolved {produced hidden hidden' : List BoundExpression} {items : List Ast.OrderKey}
    {keys : List BoundOrderKey} {c c₁ : List Nat}
    (h : Binder.bindOrderBy casefold parameters table produced hidden items c = (.ok (keys, hidden'), c₁)) :
    hidden <+: hidden' ∧ List.Forall₂ (fun item key => key.descending = item.descending ∧
      ∃ e, (produced ++ hidden')[key.index]? = some e ∧
        Resolved casefold parameters table produced item e) items keys := by
  induction items generalizing hidden keys c with
  | nil =>
      cases h
      exact ⟨List.prefix_rfl, .nil⟩
  | cons item items ih =>
      obtain ⟨⟨key, hidden₁⟩, _, hkey, h⟩ := exists_of_bind_ok h
      obtain ⟨⟨keys', hidden₂⟩, _, hrest, h⟩ := exists_of_bind_ok h
      cases h
      obtain ⟨hhidden, hdescending, e, he, hresolved⟩ := resolveOrderByKey_resolved hkey
      obtain ⟨hhidden', hkeys⟩ := ih hrest
      refine ⟨hhidden.trans hhidden', .cons ⟨hdescending, e, ?_, hresolved⟩ hkeys⟩
      obtain ⟨more, rfl⟩ := hhidden'
      obtain ⟨hlt, hget⟩ := List.getElem?_eq_some_iff.mp he
      rw [← List.append_assoc, List.getElem?_append_left hlt, he]

/-- A sort key stands for what its item stands for. -/
theorem orderBySortKeys_resolved {produced hidden : List BoundExpression} {items : List Ast.OrderKey}
    {keys : List BoundOrderKey} {sortKeys : List SortKey} {c c₁ : List Nat}
    (h : Binder.bindOrderBy casefold parameters table produced [] items c = (.ok (keys, hidden), c₁))
    (hkeys : orderBySortKeys produced hidden keys = .ok sortKeys) :
    List.Forall₂ (fun item sortKey => sortKey.descending = item.descending ∧
      Resolved casefold parameters table produced item sortKey.expression) items sortKeys := by
  refine forall₂_of_left (bindOrderBy_resolved h).2.flip (mapM_ok hkeys) fun key item sortKey hitem hkey => ?_
  obtain ⟨hdescending, e, he, hresolved⟩ := hitem
  rw [he] at hkey
  cases hkey
  exact ⟨hdescending, hresolved⟩

theorem Resolved.form {produced produced' : List BoundExpression} {item : Ast.OrderKey} {e e' : BoundExpression}
    (h : Resolved casefold parameters table produced item e)
    (h' : Resolved casefold parameters' table produced' item e') (hfixed : item.expression.FixedPatterns)
    (hproduced : produced.map BoundExpression.form = produced'.map BoundExpression.form) : e.form = e'.form := by
  rcases h with ⟨ordinal, hordinal, hget⟩ | ⟨hother, bound, c, c₁, hbound, hform⟩
  · rcases h' with ⟨ordinal', hordinal', hget'⟩ | ⟨hother', -⟩
    · rw [hordinal] at hordinal'
      cases hordinal'
      have hmapped := congrArg (·[(ordinal - 1).toNat]?) hproduced
      simpa only [List.getElem?_map, hget, hget', Option.map_some, Option.some_inj] using hmapped
    · exact absurd hordinal (hother' ordinal)
  · rcases h' with ⟨ordinal', hordinal', -⟩ | ⟨-, bound', c', c₁', hbound', hform'⟩
    · exact absurd hordinal' (hother ordinal')
    · exact hform.trans ((expression_form _ hfixed hbound hbound').trans hform'.symm)

/-- Sort keys of two bindings have one form. -/
theorem sortKeys_form {produced produced' : List BoundExpression} {items : List Ast.OrderKey}
    {keys keys' : List SortKey} (hfixed : ∀ item ∈ items, item.expression.FixedPatterns)
    (hproduced : produced.map BoundExpression.form = produced'.map BoundExpression.form)
    (h : List.Forall₂ (fun item key => key.descending = item.descending ∧
      Resolved casefold parameters table produced item key.expression) items keys)
    (h' : List.Forall₂ (fun item key => key.descending = item.descending ∧
      Resolved casefold parameters' table produced' item key.expression) items keys') :
    keys.map SortKey.form = keys'.map SortKey.form := by
  induction h generalizing keys' with
  | nil =>
      cases h'
      rfl
  | cons hitem _ ih =>
      cases h' with
      | cons hitem' hrest =>
          rw [List.map_cons, List.map_cons, SortKey.form, SortKey.form, hitem.1, hitem'.1,
            hitem.2.form hitem'.2 (hfixed _ (List.mem_cons_self ..)) hproduced,
            ih (fun item hmem => hfixed item (List.mem_cons_of_mem _ hmem)) hrest]

/-- Bindings of a SELECT are alike, whatever the values of its parameters are. -/
theorem bindSelect_alike {statement : Ast.Select}
    (hlist : ∀ es ∈ statement.expressions, ∀ e ∈ es, e.FixedPatterns)
    (hcondition : ∀ e ∈ statement.condition, e.FixedPatterns)
    (horder : ∀ item ∈ statement.orderBy, item.expression.FixedPatterns) {a b : BoundSelect} {c c₁ c' c₁' : List Nat}
    (h : Binder.bindSelect casefold getTable parameters statement c = (.ok a, c₁))
    (h' : Binder.bindSelect casefold getTable parameters' statement c' = (.ok b, c₁')) : a.Alike b := by
  obtain ⟨table, _, htable, h⟩ := exists_of_bind_ok h
  obtain ⟨table', _, htable', h'⟩ := exists_of_bind_ok h'
  rw [lift_apply] at htable htable'
  obtain rfl := Except.ok.inj ((congrArg Prod.fst htable).symm.trans (congrArg Prod.fst htable'))
  obtain ⟨produced, _, hproduced, h⟩ := exists_of_bind_ok h
  obtain ⟨produced', _, hproduced', h'⟩ := exists_of_bind_ok h'
  obtain ⟨where_, _, hwhere, h⟩ := exists_of_bind_ok h
  obtain ⟨where_', _, hwhere', h'⟩ := exists_of_bind_ok h'
  obtain ⟨⟨keys, hidden⟩, _, hkeys, h⟩ := exists_of_bind_ok h
  obtain ⟨⟨keys', hidden'⟩, _, hkeys', h'⟩ := exists_of_bind_ok h'
  obtain ⟨-, h⟩ := of_raiseIf_bind_ok h
  obtain ⟨-, h'⟩ := of_raiseIf_bind_ok h'
  obtain ⟨_, _, -, h⟩ := exists_of_bind_ok h
  obtain ⟨_, _, -, h'⟩ := exists_of_bind_ok h'
  obtain ⟨_, _, -, h⟩ := exists_of_bind_ok h
  obtain ⟨_, _, -, h'⟩ := exists_of_bind_ok h'
  cases h
  cases h'
  refine ⟨rfl, ?_, fun sortKeys sortKeys' hsort hsort' => ?_⟩
  · cases hast : statement.condition with
    | none =>
        rw [hast] at hwhere hwhere'
        cases hwhere
        cases hwhere'
        rfl
    | some ast =>
        rw [hast] at hwhere hwhere'
        obtain ⟨e, _, he, hwhere⟩ := exists_of_bind_ok hwhere
        obtain ⟨e', _, he', hwhere'⟩ := exists_of_bind_ok hwhere'
        cases hwhere
        cases hwhere'
        exact congrArg some (expression_form ast (hcondition ast hast) he he')
  · exact sortKeys_form horder (selectList_form hlist hproduced hproduced') (orderBySortKeys_resolved hkeys hsort)
      (orderBySortKeys_resolved hkeys' hsort')

end Rebound

end QuillDb
