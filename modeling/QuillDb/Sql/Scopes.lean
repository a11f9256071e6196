/-
  Sql/Scopes.lean --- column names in a FROM clause.

  Source: `TableRef` of `quilldb/sql/ast.py`; `TableScope`, `_build_scopes`,
  `resolve_column` and the columns of `_expression` and `_join_expression` of
  `quilldb/sql/binder.py`.

  In a join a bare name is looked for in every table.  A qualified one is looked for in
  the first table of that name, and the tables behind it are not looked at.  With one
  table in scope the qualifier is not looked at.
-/
import QuillDb.Lib.Fallible
import QuillDb.Sql.Binder

set_option autoImplicit false

namespace QuillDb

open Fallible Prog

/-! ## Scopes -/

structure TableRef where
  name : String
  aliasName : Option String

structure TableScope where
  ordinal : Nat
  aliasName : String
  table : TableSchema

/-- `ref.alias or ref.name`: an empty alias is none. -/
def TableRef.scopeName (ref : TableRef) : String := (ref.aliasName.filter fun given => given ≠ "").getD ref.name

/-- `_build_scopes`, over the tables of the FROM clause. -/
def buildScopes (getTable : String → Except DbError TableSchema) (refs : List TableRef) :
    Except DbError (List TableScope) :=
  refs.zipIdx.mapM fun p => do
    let table ← getTable p.1.name
    return ⟨p.2, p.1.scopeName, table⟩

section Resolve

variable (casefold : String → String)

/-- The column at a position of a table in scope. -/
def TableScope.column (scope : TableScope) (index : Nat) : Except DbError BoundColumn :=
  match scope.table.columns[index]? with
  | some column => .ok ⟨index, column.name, column.dataType, scope.ordinal⟩
  | none => .error (.indexError "tuple index out of range")

/-- The tables with a column of the name, each with its position. -/
def scopesWith (name : String) (scopes : List TableScope) : List (TableScope × Nat) :=
  scopes.filterMap fun scope =>
    match scope.table.columnIndex casefold name with
    | .ok index => some (scope, index)
    | .error _ => none

/-- `resolve_column`; `pyRepr` is Python's `repr` of a string. -/
def resolveColumn (pyRepr : String → String) (name : String) (qualifier : Option String) (scopes : List TableScope) :
    Except DbError BoundColumn :=
  match qualifier with
  | some qualifier =>
      match scopes.find? fun scope => casefold scope.aliasName = casefold qualifier with
      | none => .error (.columnNotFound s!"no such table: {pyRepr qualifier}")
      | some scope => do
          let index ← scope.table.columnIndex casefold name
          scope.column index
  | none =>
      match scopesWith casefold name scopes with
      | [] => .error (.columnNotFound s!"no such column: {pyRepr name}")
      | [(scope, index)] => scope.column index
      | found =>
          let tables := ", ".intercalate (found.map fun p => p.1.aliasName)
          .error (.ambiguousColumn s!"column {pyRepr name} is ambiguous: present in {tables}")

/-- A column of a SELECT: `_join_expression` asks `resolve_column`, `_expression` has one
table and leaves the qualifier out. -/
def bindColumn (pyRepr : String → String) (name : String) (qualifier : Option String) (scopes : List TableScope) :
    Except DbError BoundColumn :=
  match scopes with
  | [scope] => do
      let index ← scope.table.columnIndex casefold name
      scope.column index
  | scopes => resolveColumn casefold pyRepr name qualifier scopes

/-! ## What a name may mean -/

/-- The positions of a table's columns of that name. -/
def columnsNamed (name : String) (table : TableSchema) : List Nat :=
  (List.range table.columns.length).filter fun i =>
    (table.columns[i]?).any fun column => casefold column.name = casefold name

/-- The tables that a reference may mean. -/
def scopesNamed (qualifier : Option String) (scopes : List TableScope) : List TableScope :=
  scopes.filter fun scope => qualifier.all fun qualifier => casefold scope.aliasName = casefold qualifier

/-- The pairs of a table of the FROM clause and a column that a reference matches. -/
def matching (name : String) (qualifier : Option String) (scopes : List TableScope) :
    List (TableScope × Nat) :=
  (scopesNamed casefold qualifier scopes).flatMap fun scope =>
    (columnsNamed casefold name scope.table).map fun index => (scope, index)

/-- A column for one match, an error of its own for none and for several. -/
def ResolvesTo (found : List (TableScope × Nat)) (result : Except DbError BoundColumn) : Prop :=
  match found with
  | [] => ∃ message, result = .error (.columnNotFound message)
  | [(scope, index)] => ∃ column, scope.column index = .ok column ∧ result = .ok column
  | _ :: _ :: _ => ∃ message, result = .error (.ambiguousColumn message)

/-- No two columns of one name. -/
def DistinctColumns (table : TableSchema) : Prop :=
  (table.columns.map fun column => casefold column.name).Nodup

/-- Behind the first table of the qualifier's name there is none of that name that has
the column too. -/
def FirstAlone (name : String) (qualifier : Option String) (scopes : List TableScope) : Prop :=
  qualifier.isSome → ∀ scope ∈ (scopesNamed casefold qualifier scopes).tail,
    columnsNamed casefold name scope.table = []

/-- If one table is in scope, the qualifier names it, or it has no column of the name; if
there are several, the first one of the qualifier's name is alone. -/
def Unambiguous (name : String) (qualifier : Option String) (scopes : List TableScope) : Prop :=
  match scopes with
  | [scope] => scopesNamed casefold qualifier [scope] = [] → columnsNamed casefold name scope.table = []
  | scopes => FirstAlone casefold name qualifier scopes

end Resolve

section Resolution

variable {casefold pyRepr : String → String} {name : String} {scopes : List TableScope}

theorem mem_columnsNamed {table : TableSchema} {i : Nat} : i ∈ columnsNamed casefold name table ↔
    ∃ column, table.columns[i]? = some column ∧ casefold column.name = casefold name := by
  simp only [columnsNamed, List.mem_filter, List.mem_range, Option.any_eq_true, decide_eq_true_eq]
  constructor
  · exact And.right
  · rintro ⟨column, hcolumn, hname⟩
    exact ⟨(List.getElem?_eq_some_iff.mp hcolumn).1, column, hcolumn, hname⟩

/-- Two positions of one name are one. -/
theorem DistinctColumns.eq_of_mem {table : TableSchema} (h : DistinctColumns casefold table) {i j : Nat}
    (hi : i ∈ columnsNamed casefold name table) (hj : j ∈ columnsNamed casefold name table) : i = j := by
  obtain ⟨column, hcolumn, hname⟩ := mem_columnsNamed.mp hi
  obtain ⟨column', hcolumn', hname'⟩ := mem_columnsNamed.mp hj
  refine (List.getElem?_inj ?_ h).mp ?_
  · rw [List.length_map]
    exact (List.getElem?_eq_some_iff.mp hcolumn).1
  · simp [hcolumn, hcolumn', hname, hname']

theorem eq_singleton_of_nodup {α : Type} {a : α} {l : List α} (hnodup : l.Nodup) (hmem : a ∈ l)
    (heq : ∀ b ∈ l, b = a) : l = [a] := by
  have hlen : l.length ≤ 1 := by
    have hrep := List.eq_replicate_of_mem heq
    rw [hrep] at hnodup
    exact List.nodup_replicate.mp hnodup
  obtain ⟨b, rfl⟩ := List.length_eq_one_iff.mp (Nat.le_antisymm hlen (List.length_pos_of_mem hmem))
  rw [List.mem_singleton.mp hmem]

/-- `column_index` finds the one column of the name, if there is one. -/
theorem columnIndex_cases {table : TableSchema} (h : DistinctColumns casefold table) (name : String) :
    (∃ i, table.columnIndex casefold name = .ok i ∧ columnsNamed casefold name table = [i]) ∨
      ∃ message, table.columnIndex casefold name = .error (.columnNotFound message) ∧
        columnsNamed casefold name table = [] := by
  unfold TableSchema.columnIndex
  split
  · rename_i i hfind
    obtain ⟨hlt, hname, -⟩ := List.findIdx?_eq_some_iff_getElem.mp hfind
    have hmem : i ∈ columnsNamed casefold name table :=
      mem_columnsNamed.mpr ⟨_, List.getElem?_eq_getElem hlt, of_decide_eq_true hname⟩
    refine .inl ⟨i, rfl, ?_⟩
    have hnodup : (columnsNamed casefold name table).Nodup := List.nodup_range.filter _
    exact eq_singleton_of_nodup hnodup hmem fun j hj => h.eq_of_mem hj hmem
  · rename_i hfind
    refine .inr ⟨_, rfl, ?_⟩
    apply List.eq_nil_iff_forall_not_mem.mpr
    intro i hi
    obtain ⟨column, hcolumn, hname⟩ := mem_columnsNamed.mp hi
    have hnone := List.findIdx?_eq_none_iff.mp hfind column (List.mem_of_getElem? hcolumn)
    simp [hname] at hnone

/-- The position that `column_index` returns is that of a column. -/
theorem column_of_columnIndex {scope : TableScope} {i : Nat}
    (h : scope.table.columnIndex casefold name = .ok i) : ∃ column, scope.column i = .ok column := by
  have hlt := TableSchema.columnIndex_lt h
  simp [TableScope.column, List.getElem?_eq_getElem hlt]

/-- The search for a bare name finds the pairs that it matches. -/
theorem scopesWith_eq (h : ∀ scope ∈ scopes, DistinctColumns casefold scope.table) :
    scopesWith casefold name scopes = matching casefold name none scopes := by
  have hall : scopesNamed casefold none scopes = scopes := by simp [scopesNamed]
  rw [matching, hall]
  clear hall
  induction scopes with
  | nil => rfl
  | cons scope scopes ih =>
      have hrest := ih fun s hs => h s (List.mem_cons_of_mem _ hs)
      rw [scopesWith] at hrest
      rw [scopesWith, List.flatMap_cons, List.filterMap_cons]
      rcases columnIndex_cases (h scope (List.mem_cons_self ..)) name with
        ⟨i, hi, hnamed⟩ | ⟨message, hi, hnamed⟩
      · simp [hi, hnamed, hrest]
      · simp [hi, hnamed, hrest]

theorem resolveColumn_bare (h : ∀ scope ∈ scopes, DistinctColumns casefold scope.table) :
    ResolvesTo (matching casefold name none scopes) (resolveColumn casefold pyRepr name none scopes) := by
  rw [← scopesWith_eq h]
  unfold resolveColumn
  have hfound : ∀ p ∈ scopesWith casefold name scopes, p.1.table.columnIndex casefold name = .ok p.2 := by
    intro p hp
    obtain ⟨scope, -, hscope⟩ := List.mem_filterMap.mp hp
    split at hscope
    · rename_i i hi
      obtain rfl := Option.some.inj hscope
      exact hi
    · cases hscope
  generalize scopesWith casefold name scopes = found at hfound
  rcases found with _ | ⟨⟨scope, i⟩, _ | ⟨q, rest⟩⟩
  · exact ⟨_, rfl⟩
  · obtain ⟨column, hcolumn⟩ := column_of_columnIndex (hfound (scope, i) (List.mem_cons_self ..))
    exact ⟨column, hcolumn, hcolumn⟩
  · exact ⟨_, rfl⟩

/-- With a qualifier only the first table of its name counts. -/
theorem resolveColumn_qualified {qualifier : String}
    (h : ∀ scope ∈ scopes, DistinctColumns casefold scope.table) :
    ResolvesTo (matching casefold name (some qualifier) scopes)
        (resolveColumn casefold pyRepr name (some qualifier) scopes) ↔
      FirstAlone casefold name (some qualifier) scopes := by
  have hfind : scopes.find? (fun scope => casefold scope.aliasName = casefold qualifier) =
      (scopesNamed casefold (some qualifier) scopes).head? := by
    simp [scopesNamed, List.head?_filter]
  have hnamed : ∀ scope ∈ scopesNamed casefold (some qualifier) scopes, DistinctColumns casefold scope.table :=
    fun scope hscope => h scope (List.mem_filter.mp hscope).1
  unfold resolveColumn matching FirstAlone
  dsimp only
  rw [hfind]
  generalize scopesNamed casefold (some qualifier) scopes = named at hnamed
  rcases named with _ | ⟨first, rest⟩
  · refine iff_of_true ⟨_, rfl⟩ fun _ scope hscope => ?_
    cases hscope
  · rw [List.head?_cons, List.tail_cons, List.flatMap_cons]
    dsimp only
    -- what the tables behind the first one match
    have hrest : (∀ scope ∈ rest, columnsNamed casefold name scope.table = []) ↔
        (rest.flatMap fun scope => (columnsNamed casefold name scope.table).map fun i => (scope, i)) = [] := by
      simp [List.flatMap_eq_nil_iff]
    simp only [Option.isSome_some, true_implies, hrest]
    generalize (rest.flatMap fun scope => (columnsNamed casefold name scope.table).map fun i => (scope, i)) = behind
    rcases columnIndex_cases (hnamed first (List.mem_cons_self ..)) name with
        ⟨i, hi, hone⟩ | ⟨message, hi, hnone⟩
    · obtain ⟨column, hcolumn⟩ := column_of_columnIndex hi
      rw [hone, hi]
      rcases behind with _ | ⟨p, others⟩
      · exact iff_of_true ⟨column, hcolumn, hcolumn⟩ rfl
      · refine iff_of_false ?_ (List.cons_ne_nil _ _)
        rintro ⟨message, hmessage⟩
        have hok : (Except.ok column : Except DbError BoundColumn) = .error (.ambiguousColumn message) :=
          hcolumn.symm.trans hmessage
        cases hok
    · rw [hnone, hi]
      rcases behind with _ | ⟨p, _ | ⟨q, others⟩⟩
      · exact iff_of_true ⟨message, rfl⟩ rfl
      · refine iff_of_false ?_ (List.cons_ne_nil _ _)
        rintro ⟨column, -, hok⟩
        cases hok
      · refine iff_of_false ?_ (List.cons_ne_nil _ _)
        rintro ⟨message', hmessage⟩
        cases hmessage

/-- The tables of a FROM clause are tables of the catalog. -/
theorem buildScopes_tables {getTable : String → Except DbError TableSchema} {refs : List TableRef}
    (h : buildScopes getTable refs = .ok scopes) :
    ∀ scope ∈ scopes, ∃ name, getTable name = .ok scope.table := by
  intro scope hscope
  obtain ⟨p, -, hp⟩ := exists_left (mapM_ok h) hscope
  obtain ⟨table, htable, hp⟩ := bind_eq_ok hp
  obtain rfl := Except.ok.inj hp
  exact ⟨_, htable⟩

theorem resolveColumn_iff (h : ∀ scope ∈ scopes, DistinctColumns casefold scope.table) (qualifier : Option String) :
    ResolvesTo (matching casefold name qualifier scopes) (resolveColumn casefold pyRepr name qualifier scopes) ↔
      FirstAlone casefold name qualifier scopes := by
  cases qualifier with
  | none =>
      refine iff_of_true (resolveColumn_bare h) fun hsome => ?_
      cases hsome
  | some qualifier => exact resolveColumn_qualified h

/-- One table: the qualifier only counts for what the reference matches. -/
theorem bindColumn_single {scope : TableScope} (h : DistinctColumns casefold scope.table) (qualifier : Option String) :
    ResolvesTo (matching casefold name qualifier [scope]) (bindColumn casefold pyRepr name qualifier [scope]) ↔
      (scopesNamed casefold qualifier [scope] = [] → columnsNamed casefold name scope.table = []) := by
  have hnamed : scopesNamed casefold qualifier [scope] = [] ∨ scopesNamed casefold qualifier [scope] = [scope] := by
    rw [scopesNamed, List.filter_singleton]
    cases qualifier.all fun qualifier => decide (casefold scope.aliasName = casefold qualifier) <;> simp
  rw [bindColumn, matching]
  rcases columnIndex_cases h name with ⟨i, hi, hone⟩ | ⟨message, hi, hnone⟩
  · obtain ⟨column, hcolumn⟩ := column_of_columnIndex hi
    have hbound : (scope.table.columnIndex casefold name >>= scope.column) = .ok column := by
      rw [hi]
      exact hcolumn
    rw [hbound, hone]
    rcases hnamed with hnamed | hnamed
    · rw [hnamed]
      refine iff_of_false ?_ fun h => List.cons_ne_nil _ _ (h rfl)
      rintro ⟨message, hmessage⟩
      cases hmessage
    · rw [hnamed]
      refine iff_of_true ?_ fun hnil => absurd hnil (List.cons_ne_nil _ _)
      rw [List.flatMap_singleton, hone]
      exact ⟨column, hcolumn, rfl⟩
  · have hbound : (scope.table.columnIndex casefold name >>= scope.column) = .error (.columnNotFound message) := by
      rw [hi]
      rfl
    rw [hbound, hnone]
    refine iff_of_true ?_ fun _ => rfl
    rcases hnamed with hnamed | hnamed
    · rw [hnamed]
      exact ⟨message, rfl⟩
    · rw [hnamed, List.flatMap_singleton, hnone]
      exact ⟨message, rfl⟩

/-- A reference is bound as its matches say if and only if, in a join, it has no qualifier
or the first table of that name is the only one with the column; and, with one table, it
has no qualifier, or that of the table, or a name that the table does not have. -/
theorem bindColumn_iff {getTable : String → Except DbError TableSchema}
    (hcolumns : ∀ name table, getTable name = .ok table → DistinctColumns casefold table)
    {refs : List TableRef} (hscopes : buildScopes getTable refs = .ok scopes) (name : String)
    (qualifier : Option String) :
    ResolvesTo (matching casefold name qualifier scopes) (bindColumn casefold pyRepr name qualifier scopes) ↔
      Unambiguous casefold name qualifier scopes := by
  have hdistinct : ∀ scope ∈ scopes, DistinctColumns casefold scope.table := by
    intro scope hscope
    obtain ⟨tableName, htable⟩ := buildScopes_tables hscopes scope hscope
    exact hcolumns tableName _ htable
  rcases scopes with _ | ⟨scope, _ | ⟨second, rest⟩⟩
  · exact resolveColumn_iff hdistinct qualifier
  · exact bindColumn_single (hdistinct scope (List.mem_singleton_self _)) qualifier
  · exact resolveColumn_iff hdistinct qualifier

/-- With one table the column is that of `_expression`. -/
theorem expression_column (parameters : List Value) (table : TableSchema) (aliasName : String)
    (qualifier : Option String) :
    Binder.expression casefold parameters table (.column name qualifier) =
      lift ((bindColumn casefold pyRepr name qualifier [⟨0, aliasName, table⟩]).map .column) := by
  rw [Binder.expression, bindColumn]
  cases table.columnIndex casefold name with
  | error e => rfl
  | ok index =>
      have hlift : (lift (.ok index) : BindM Nat) = pure index := rfl
      have hok (f : Nat → Except DbError BoundColumn) : Except.ok index >>= f = f index := rfl
      rw [hlift, pure_bind, hok, TableScope.column]
      cases table.columns[index]? with
      | none => rfl
      | some column => rfl

end Resolution

/-! ## A table joined to itself -/

def pairTable : TableSchema where
  name := "t"
  columns := [⟨"a", .integer⟩, ⟨"b", .integer⟩]
  rootPage := 2
  sql := "CREATE TABLE t (a INTEGER, b INTEGER)"

def pairTables (name : String) : Except DbError TableSchema :=
  if name = "t" then .ok pairTable else .error (.tableNotFound name)

theorem pairTables_distinct : ∀ name table, pairTables name = .ok table → DistinctColumns id table := by
  intro name table h
  unfold pairTables at h
  split at h
  · obtain rfl := Except.ok.inj h
    simp [DistinctColumns, pairTable]
  · cases h

/-- The scopes of `FROM t AS x, t AS y` and the like. -/
def selfJoin (first second : String) : List TableScope := [⟨0, first, pairTable⟩, ⟨1, second, pairTable⟩]

theorem bindColumn_iff_selfJoin :
    ResolvesTo (matching id "a" (some "y") (selfJoin "x" "y"))
      (bindColumn id id "a" (some "y") (selfJoin "x" "y")) := by
  have hscopes : buildScopes pairTables [⟨"t", some "x"⟩, ⟨"t", some "y"⟩] = .ok (selfJoin "x" "y") := rfl
  apply (bindColumn_iff pairTables_distinct hscopes "a" (some "y")).mpr
  simp [Unambiguous, FirstAlone, scopesNamed, selfJoin]

/-- In `FROM t AS x, t AS x` the column `x.a` is the one of the first table. -/
theorem bindColumn_picks_first :
    buildScopes pairTables [⟨"t", some "x"⟩, ⟨"t", some "x"⟩] = .ok (selfJoin "x" "x") ∧
      bindColumn id id "a" (some "x") (selfJoin "x" "x") = .ok ⟨0, "a", .integer, 0⟩ ∧
        ¬ ResolvesTo (matching id "a" (some "x") (selfJoin "x" "x"))
          (bindColumn id id "a" (some "x") (selfJoin "x" "x")) := by
  refine ⟨rfl, rfl, ?_⟩
  rintro ⟨message, hmessage⟩
  cases hmessage

end QuillDb
