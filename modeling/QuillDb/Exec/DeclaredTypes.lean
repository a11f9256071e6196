/-
  Exec/DeclaredTypes.lean --- the declared types of the rows on disk.

  Source: `bind_insert`, `bind_update` and `_coerce_to_declared_type` of
  `quilldb/sql/binder.py`, `Insert`, `Delete` and `Update` of `quilldb/exec/operators.py`.

  INSERT checks its values when they are bound; UPDATE computes them on each row and
  stores what comes out.
-/
import QuillDb.Exec.WriteSpec

set_option autoImplicit false

namespace QuillDb

open Prog PageStore Fallible

/-! ## Typed rows -/

/-- The values a column may hold: NULL, and those of its declared type. -/
def DataType.Admits : DataType → Value → Prop
  | _, .null => True
  | .integer, .int n => fitsInt64 n = true
  | .real, .real _ => True
  | .text, .text _ => True
  | .blob, .blob _ => True
  | _, _ => False

/-- A value for each column, of its declared type. -/
def RowTyped (columns : List ColumnSchema) (row : List Value) : Prop :=
  List.Forall₂ (fun column v => column.dataType.Admits v) columns row

/-- A record that holds a typed row. -/
def PayloadTyped (columns : List ColumnSchema) (payload : Bytes) : Prop :=
  ∃ row, decodeRecord payload 0 = .ok row ∧ RowTyped columns row

/-- Integers are encoded in 64 bits or not at all. -/
theorem fitsInt64_of_serialTypeFor {n : Int} {p : Nat × Bytes} (h : serialTypeFor (.int n) = .ok p) :
    fitsInt64 n = true := by
  have hwide : ∀ r ∈ intRanges, (2 : Int) ^ (8 * r.2 - 1) ≤ 2 ^ 63 := by decide
  have hin : ∀ r ∈ intRanges, inWidth n r.2 = true → fitsInt64 n = true := by
    intro r hr hwidth
    have hle := hwide r hr
    rw [inWidth, Bool.and_eq_true, decide_eq_true_eq, decide_eq_true_eq] at hwidth
    rw [fitsInt64, minInt64, maxInt64, Bool.and_eq_true, decide_eq_true_eq, decide_eq_true_eq]
    omega
  rw [serialTypeFor] at h
  split at h
  · rename_i h0
    rw [h0]
    rfl
  · split at h
    · rename_i h1
      rw [h1]
      rfl
    · split at h
      · rename_i t width hfind
        have hfound := List.find?_some hfind
        exact hin (t, width) (List.mem_of_find?_eq_some hfind) hfound
      · cases h

variable {casefold : String → String} {ops : FloatOps}

/-- What `_coerce_to_declared_type` returns is of the declared type, once it is encoded. -/
theorem admits_of_coerced {dataType : DataType} {v v' : Value} {tableName columnName : String}
    (h : coerceToDeclaredType ops v dataType tableName columnName = .ok v')
    (hstored : ∃ p, serialTypeFor v' = .ok p) : dataType.Admits v' := by
  obtain ⟨p, hp⟩ := hstored
  unfold coerceToDeclaredType at h
  split at h
  · obtain rfl := Except.ok.inj h
    cases dataType <;> exact True.intro
  · dsimp only at h
    split at h
    · obtain rfl := Except.ok.inj h
      exact fitsInt64_of_serialTypeFor hp
    · cases h
    · rename_i n _
      cases hfloat : floatOfInt ops n with
      | error e =>
          rw [hfloat] at h
          cases h
      | ok bits =>
          rw [hfloat] at h
          obtain rfl := Except.ok.inj h
          exact True.intro
    · obtain rfl := Except.ok.inj h
      exact True.intro
    · cases h
    · obtain rfl := Except.ok.inj h
      exact True.intro
    · cases h
    · obtain rfl := Except.ok.inj h
      exact True.intro
    · cases h

/-- Every value of an encoded row was encoded. -/
theorem serialTypeFor_of_encodeRecord {values : List Value} {payload : Bytes}
    (h : encodeRecord values = .ok payload) : ∀ v ∈ values, ∃ p, serialTypeFor v = .ok p := by
  intro v hv
  unfold encodeRecord at h
  obtain ⟨pairs, hpairs, -⟩ := bind_eq_ok h
  obtain ⟨p, -, hp⟩ := exists_right (mapM_ok hpairs) hv
  exact ⟨p, hp⟩

theorem payloadTyped_of_encodeRecord {columns : List ColumnSchema} {values : List Value} {payload : Bytes}
    (h : encodeRecord values = .ok payload) (htyped : RowTyped columns values) :
    PayloadTyped columns payload := by
  have hread := decodeRecord_encodeRecord [] [] h
  rw [List.append_nil] at hread
  exact ⟨values, hread, htyped⟩

/-! ## INSERT -/

/-- The values of a bound INSERT have passed the check of their columns. -/
theorem coerced_ok {parameters : List Value} {tableName : String} {pairs : List (Ast.Expression × ColumnSchema)}
    {consumed consumed' : List Nat} {values : List Value}
    (h : Binder.coerced ops parameters tableName pairs consumed = (.ok values, consumed')) :
    List.Forall₂ (fun pair v => ∃ v₀, coerceToDeclaredType ops v₀ pair.2.dataType tableName pair.2.name = .ok v)
      pairs values := by
  induction pairs generalizing consumed consumed' values with
  | nil =>
      obtain rfl := Except.ok.inj (congrArg Prod.fst h)
      exact .nil
  | cons pair pairs ih =>
      obtain ⟨v₀, s₁, -, h⟩ := exists_of_bind_ok h
      obtain ⟨v, s₂, hv, h⟩ := exists_of_bind_ok h
      obtain ⟨vs, s₃, hvs, h⟩ := exists_of_bind_ok h
      obtain rfl := Except.ok.inj (congrArg Prod.fst h)
      exact .cons ⟨v₀, congrArg Prod.fst hv⟩ (ih hvs)

/-- What came out of the binder, with every parameter consumed. -/
theorem bind_ok {α : Type} {parameters : List Value} {m : BindM α} {bound : α}
    (h : Binder.bind parameters m = .ok bound) : ∃ consumed, m [] = (.ok bound, consumed) := by
  unfold Binder.bind at h
  split at h
  · cases h
  · rename_i hrun
    split at h
    · cases h
    · obtain rfl := Except.ok.inj h
      exact ⟨_, hrun⟩

theorem bindInsert_ok {getTable : String → Except DbError TableSchema} {parameters : List Value}
    {statement : Ast.Insert} {bound : BoundInsert} {consumed consumed' : List Nat}
    (h : Binder.bindInsert ops getTable parameters statement consumed = (.ok bound, consumed')) :
    getTable statement.table = .ok bound.table ∧
      List.Forall₂ (fun column v => ∃ v₀,
        coerceToDeclaredType ops v₀ column.dataType bound.table.name column.name = .ok v)
        bound.table.columns bound.values := by
  obtain ⟨table, s₁, htable, h⟩ := exists_of_bind_ok h
  obtain ⟨_, s₂, hlen, h⟩ := exists_of_bind_ok h
  obtain ⟨values, s₃, hvalues, h⟩ := exists_of_bind_ok h
  obtain rfl := Except.ok.inj (congrArg Prod.fst h)
  have hlength : statement.values.length = table.columns.length := by
    unfold raiseIf at hlen
    split at hlen
    · cases congrArg Prod.fst hlen
    · rename_i hne
      exact not_not.mp hne
  refine ⟨congrArg Prod.fst htable, ?_⟩
  have hzip := coerced_ok hvalues
  have hsnd : (statement.values.zip table.columns).map Prod.snd = table.columns :=
    List.map_snd_zip hlength.ge
  rw [← hsnd]
  exact List.forall₂_map_left_iff.mpr hzip

/-! ## UPDATE -/

/-- The last assignment to a column, the one whose value stays. -/
def lastAssigned (assignments : List BoundAssignment) (column : Nat) : Option BoundAssignment :=
  (assignments.filter fun assignment => assignment.columnIndex = column).getLast?

theorem lastAssigned_cons (assignment : BoundAssignment) (rest : List BoundAssignment) (column : Nat) :
    lastAssigned (assignment :: rest) column =
      (lastAssigned rest column).or (if assignment.columnIndex = column then some assignment else none) := by
  unfold lastAssigned
  by_cases h : assignment.columnIndex = column
  · rw [List.filter_cons_of_pos (by simpa using h), List.getLast?_cons, if_pos h]
    cases (rest.filter fun assignment => assignment.columnIndex = column).getLast? with
    | none => rfl
    | some last => rfl
  · rw [List.filter_cons_of_neg (by simpa using h), if_neg h, Option.or_none]

/-- What the assignments leave in a column. -/
theorem assignedRow_ok {oldValues values newValues : List Value} {assignments : List BoundAssignment}
    (h : assignedRow ops oldValues assignments values = .ok newValues) :
    newValues.length = values.length ∧ ∀ i,
      (lastAssigned assignments i = none → newValues[i]? = values[i]?) ∧
      ∀ assignment, lastAssigned assignments i = some assignment →
        ∃ v, evaluate ops oldValues assignment.value = .ok v ∧ ∀ v', newValues[i]? = some v' → v' = v := by
  induction assignments generalizing values with
  | nil =>
      obtain rfl := Except.ok.inj h
      exact ⟨rfl, fun i => ⟨fun _ => rfl, fun assignment hlast => by cases hlast⟩⟩
  | cons assignment rest ih =>
      rw [assignedRow] at h
      obtain ⟨v, hv, h⟩ := bind_eq_ok h
      split at h
      · rename_i hlt
        obtain ⟨hlength, hcolumns⟩ := ih h
        refine ⟨hlength.trans (List.length_set ..), fun i => ?_⟩
        obtain ⟨hkept, hassigned⟩ := hcolumns i
        rw [lastAssigned_cons]
        cases hlast : lastAssigned rest i with
        | some last =>
            refine ⟨fun hnone => (by cases hnone), fun assignment' hsome => ?_⟩
            obtain rfl := Option.some.inj hsome
            exact hassigned last hlast
        | none =>
            have hset := hkept hlast
            rw [Option.none_or]
            by_cases heq : assignment.columnIndex = i
            · subst heq
              rw [if_pos rfl]
              refine ⟨fun hnone => (by cases hnone), fun assignment' hsome => ?_⟩
              obtain rfl := Option.some.inj hsome
              refine ⟨v, hv, fun v' hv' => ?_⟩
              rw [hset, List.getElem?_set_self hlt] at hv'
              exact (Option.some.inj hv').symm
            · rw [if_neg heq]
              exact ⟨fun _ => hset.trans (List.getElem?_set_ne heq), fun _ hsome => by cases hsome⟩
      · cases h

theorem bindUpdate_ok {getTable : String → Except DbError TableSchema} {parameters : List Value}
    {statement : Ast.Update} {bound : BoundUpdate} {consumed consumed' : List Nat}
    (h : Binder.bindUpdate casefold getTable parameters statement consumed = (.ok bound, consumed')) :
    getTable statement.table = .ok bound.table := by
  obtain ⟨table, s₁, htable, h⟩ := exists_of_bind_ok h
  obtain ⟨assignments, s₂, -, h⟩ := exists_of_bind_ok h
  obtain ⟨condition, s₃, -, h⟩ := exists_of_bind_ok h
  obtain rfl := Except.ok.inj (congrArg Prod.fst h)
  exact congrArg Prod.fst htable

theorem bindDelete_ok {getTable : String → Except DbError TableSchema} {parameters : List Value}
    {statement : Ast.Delete} {bound : BoundDelete} {consumed consumed' : List Nat}
    (h : Binder.bindDelete casefold getTable parameters statement consumed = (.ok bound, consumed')) :
    getTable statement.table = .ok bound.table := by
  obtain ⟨table, s₁, htable, h⟩ := exists_of_bind_ok h
  obtain ⟨condition, s₂, -, h⟩ := exists_of_bind_ok h
  obtain rfl := Except.ok.inj (congrArg Prod.fst h)
  exact congrArg Prod.fst htable

/-- Every row that an UPDATE finds gets values that its columns admit: INSERT would have
stored them as they are. -/
def Admissible (ops : FloatOps) (statement : BoundUpdate) (s : PageStore) : Prop :=
  ∀ found, (scanMatchingRows ops statement.table statement.condition s).1 = .ok found → ∀ p ∈ found,
    ∀ i column assignment v, statement.table.columns[i]? = some column →
      lastAssigned statement.assignments i = some assignment → evaluate ops p.2 assignment.value = .ok v →
        coerceToDeclaredType ops v column.dataType statement.table.name column.name = .ok v

/-- The new row of such an UPDATE is typed, once it is encoded. -/
theorem rowTyped_of_assigned {statement : BoundUpdate} {oldValues newValues : List Value} {payload : Bytes}
    (hold : RowTyped statement.table.columns oldValues)
    (hnew : assignedRow ops oldValues statement.assignments oldValues = .ok newValues)
    (hpayload : encodeRecord newValues = .ok payload)
    (hadmits : ∀ i column assignment v, statement.table.columns[i]? = some column →
      lastAssigned statement.assignments i = some assignment → evaluate ops oldValues assignment.value = .ok v →
        coerceToDeclaredType ops v column.dataType statement.table.name column.name = .ok v) :
    RowTyped statement.table.columns newValues := by
  obtain ⟨hlength, hcolumns⟩ := assignedRow_ok hnew
  obtain ⟨hlen, hget⟩ := List.forall₂_iff_get.mp hold
  refine List.forall₂_iff_get.mpr ⟨hlen.trans hlength.symm, fun i hi hi' => ?_⟩
  obtain ⟨hkept, hassigned⟩ := hcolumns i
  have hvalue : newValues[i]? = some (newValues.get ⟨i, hi'⟩) := List.getElem?_eq_getElem hi'
  cases hlast : lastAssigned statement.assignments i with
  | none =>
      have hi'' : i < oldValues.length := hlength ▸ hi'
      have hsame := hkept hlast
      rw [hvalue, List.getElem?_eq_getElem hi''] at hsame
      rw [Option.some.inj hsame]
      exact hget i hi hi''
  | some assignment =>
      obtain ⟨v, hv, hlands⟩ := hassigned assignment hlast
      have hcoerced := hadmits i _ assignment v (List.getElem?_eq_getElem hi) hlast hv
      refine admits_of_coerced (hlands _ hvalue ▸ hcoerced) ?_
      exact serialTypeFor_of_encodeRecord hpayload _ (List.get_mem newValues ⟨i, hi'⟩)

/-! ## Statements -/

/-- The statements that write rows. -/
inductive RowStatement where
  | insert (statement : Ast.Insert)
  | update (statement : Ast.Update)
  | delete (statement : Ast.Delete)

/-- A statement with its parameters. -/
structure Request where
  statement : RowStatement
  parameters : List Value

section Statements

variable (casefold : String → String) (ops : FloatOps) (catalog : Catalog)

/-- `bind` and the operator that `build_operator` makes, drained. -/
def Request.run (request : Request) : StoreM Unit :=
  match request.statement with
  | .insert statement => do
      let bound ← lift (Binder.bind request.parameters
        (Binder.bindInsert ops (catalog.getTable casefold) request.parameters statement))
      insertRow casefold (catalog.indexesFor casefold bound.table.name) bound
  | .update statement => do
      let bound ← lift (Binder.bind request.parameters
        (Binder.bindUpdate casefold (catalog.getTable casefold) request.parameters statement))
      let _ ← updateRows casefold ops (catalog.indexesFor casefold bound.table.name) bound
  | .delete statement => do
      let bound ← lift (Binder.bind request.parameters
        (Binder.bindDelete casefold (catalog.getTable casefold) request.parameters statement))
      let _ ← deleteRows casefold ops (catalog.indexesFor casefold bound.table.name) bound

/-- An UPDATE whose values its columns admit; the other statements check theirs. -/
def Request.Admissible (request : Request) (s : PageStore) : Prop :=
  match request.statement with
  | .update statement => ∀ bound, Binder.bind request.parameters
      (Binder.bindUpdate casefold (catalog.getTable casefold) request.parameters statement) = .ok bound →
        QuillDb.Admissible ops bound s
  | _ => True

/-- A run of statements that all succeed, each from a state with `meets`. -/
inductive Succeeds (meets : Request → PageStore → Prop) : PageStore → List Request → PageStore → Prop
  | nil (s : PageStore) : Succeeds meets s [] s
  | cons {s s₁ s₂ : PageStore} {request : Request} {requests : List Request} (hmeets : meets request s)
      (hrun : request.run casefold ops catalog s = (.ok (), s₁)) (hrest : Succeeds meets s₁ requests s₂) :
      Succeeds meets s (request :: requests) s₂

end Statements

/-! ## The rows of a database -/

/-- The trees of the objects of a catalog. -/
def Catalog.slots (catalog : Catalog) : List (TreeKind × Nat) :=
  (catalog.tables.map fun e => (.table, e.2.rootPage)) ++ catalog.indexes.map fun e => (.index, e.2.rootPage)

/-- The rows of each table are of its declared types. -/
def RowsTyped (catalog : Catalog) (root : Nat) (_ : Int) (payload : Bytes) : Prop :=
  ∀ e ∈ catalog.tables, e.2.rootPage = root → PayloadTyped e.2.columns payload

/-- The pages hold a tree for each table and each index of the catalog, and every row
is of its table's declared types. -/
def WellTyped (catalog : Catalog) (s : PageStore) : Prop :=
  ∃ header, Holds header catalog.slots (RowsTyped catalog) s

section WellTyped

variable {catalog : Catalog} {s s' : PageStore} {header : PageContent}

theorem mem_tables {name : String} {table : TableSchema} (h : catalog.getTable casefold name = .ok table) :
    ∃ e ∈ catalog.tables, e.2 = table := by
  unfold Catalog.getTable at h
  split at h
  · rename_i found hlookup
    obtain rfl := Except.ok.inj h
    exact ⟨_, Dict.mem_of_lookup hlookup, rfl⟩
  · cases h

theorem table_mem_slots {e : String × TableSchema} (he : e ∈ catalog.tables) :
    (.table, e.2.rootPage) ∈ catalog.slots :=
  List.mem_append_left _ (List.mem_map_of_mem he)

theorem index_mem_slots {name : String} : ∀ index ∈ catalog.indexesFor casefold name,
    (.index, index.rootPage) ∈ catalog.slots := by
  intro index hindex
  obtain ⟨e, he, rfl⟩ := List.mem_map.mp (List.mem_filter.mp hindex).1
  exact List.mem_append_right _ (List.mem_map.mpr ⟨e, he, rfl⟩)

/-- Two tables with one root are one table. -/
theorem RowsTyped.of_table {ok : Nat → Int → Bytes → Prop} (hh : Holds header catalog.slots ok s)
    {e : String × TableSchema} (he : e ∈ catalog.tables) {payload : Bytes} {rowid : Int}
    (htyped : PayloadTyped e.2.columns payload) : RowsTyped catalog e.2.rootPage rowid payload := by
  intro e' he' hroot
  have hnodup := hh.nodup_roots
  unfold Catalog.slots at hnodup
  rw [List.map_append, List.map_map, List.map_map] at hnodup
  have hsame := List.inj_on_of_nodup_map (List.nodup_append.mp hnodup).1 he' he hroot
  rw [hsame]
  exact htyped

/-- The rows that a statement finds are typed. -/
theorem rowTyped_of_scan (hh : Holds header catalog.slots (RowsTyped catalog) s) {e : String × TableSchema}
    (he : e ∈ catalog.tables) {condition : Option BoundExpression} {found : List (Int × List Value)}
    (hscan : (scanMatchingRows ops e.2 condition s).1 = .ok found) :
    ∀ p ∈ found, RowTyped e.2.columns p.2 := by
  have hpost := @scanMatchingRows_post ops s header catalog.slots (RowsTyped catalog) e.2 condition hh
    (table_mem_slots he)
  obtain ⟨-, hfound⟩ := hpost.ok (apply_eq hscan)
  intro p hp
  obtain ⟨payload, hok, hdecode, -⟩ := hfound p hp
  obtain ⟨row, hrow, htyped⟩ := hok e he rfl
  obtain rfl := Except.ok.inj (hdecode.symm.trans hrow)
  exact htyped

/-- One statement. -/
theorem Request.run_wellTyped {request : Request} (h : WellTyped catalog s)
    (hmeets : request.Admissible casefold ops catalog s)
    (hrun : request.run casefold ops catalog s = (.ok (), s')) : WellTyped catalog s' := by
  obtain ⟨header, hh⟩ := h
  refine ⟨header, ?_⟩
  obtain ⟨statement, parameters⟩ := request
  cases statement with
  | insert statement =>
      obtain ⟨bound, s₁, hbind, hrun⟩ := exists_of_bind_ok hrun
      obtain rfl : s = s₁ := congrArg Prod.snd hbind
      obtain ⟨consumed, hbound⟩ := bind_ok (congrArg Prod.fst hbind)
      obtain ⟨htable, hvalues⟩ := bindInsert_ok hbound
      obtain ⟨e, he, hetable⟩ := mem_tables htable
      have hpost := @insertRow_post casefold (catalog.indexesFor casefold bound.table.name) s header
        catalog.slots (RowsTyped catalog) bound hh (hetable ▸ table_mem_slots he) index_mem_slots
        fun rowid payload _ hpayload => by
          rw [← hetable]
          refine RowsTyped.of_table hh he (payloadTyped_of_encodeRecord hpayload ?_)
          rw [hetable]
          have hstored := serialTypeFor_of_encodeRecord hpayload
          refine List.forall₂_iff_get.mpr ⟨hvalues.length_eq, fun i hi hi' => ?_⟩
          obtain ⟨v₀, hv⟩ := hvalues.get hi hi'
          exact admits_of_coerced hv (hstored _ (List.get_mem _ _))
      exact hpost.ok hrun
  | update statement =>
      obtain ⟨bound, s₁, hbind, hrun⟩ := exists_of_bind_ok hrun
      obtain rfl : s = s₁ := congrArg Prod.snd hbind
      obtain ⟨count, s₂, hupdate, hrun⟩ := exists_of_bind_ok hrun
      obtain rfl : s₂ = s' := congrArg Prod.snd hrun
      have hbound : Binder.bind parameters
          (Binder.bindUpdate casefold (catalog.getTable casefold) parameters statement) = .ok bound :=
        congrArg Prod.fst hbind
      obtain ⟨consumed, hrun'⟩ := bind_ok hbound
      obtain ⟨e, he, hetable⟩ := mem_tables (bindUpdate_ok hrun')
      have hadmissible := hmeets _ hbound
      have hslot := hetable ▸ table_mem_slots he
      have hpost := @updateRows_post casefold ops (catalog.indexesFor casefold bound.table.name) s header
        catalog.slots (RowsTyped catalog) bound hh hslot index_mem_slots
        fun found hfound p hp _ newValues payload _ hnew hpayload => by
          have hold : RowTyped bound.table.columns p.2 := by
            rw [← hetable] at hfound ⊢
            exact rowTyped_of_scan hh he hfound p hp
          have htyped := payloadTyped_of_encodeRecord hpayload
            (rowTyped_of_assigned hold hnew hpayload (hadmissible found hfound p hp))
          rw [← hetable] at htyped ⊢
          exact RowsTyped.of_table hh he htyped
      exact hpost.ok hupdate
  | delete statement =>
      obtain ⟨bound, s₁, hbind, hrun⟩ := exists_of_bind_ok hrun
      obtain rfl : s = s₁ := congrArg Prod.snd hbind
      obtain ⟨count, s₂, hdelete, hrun⟩ := exists_of_bind_ok hrun
      obtain rfl : s₂ = s' := congrArg Prod.snd hrun
      obtain ⟨consumed, hrun'⟩ := bind_ok (congrArg Prod.fst hbind)
      obtain ⟨e, he, hetable⟩ := mem_tables (bindDelete_ok hrun')
      have hslot := hetable ▸ table_mem_slots he
      have hpost := @deleteRows_post casefold ops (catalog.indexesFor casefold bound.table.name) s header
        catalog.slots (RowsTyped catalog) bound hh hslot index_mem_slots
      exact hpost.ok hdelete

/-- Declared types hold of every row on disk, in every run of INSERT, UPDATE and DELETE
statements that succeed and whose UPDATEs compute admissible values. -/
theorem declared_types_hold {requests : List Request} (h : WellTyped catalog s)
    (hrun : Succeeds casefold ops catalog (Request.Admissible casefold ops catalog) s requests s') :
    WellTyped catalog s' := by
  induction hrun with
  | nil s => exact h
  | cons hmeets hstep _ ih => exact ih (Request.run_wellTyped h hmeets hstep)

end WellTyped

/-! ## A table of one INTEGER column -/

def ageTable : TableSchema := ⟨"t", [⟨"a", .integer⟩], 2, "CREATE TABLE t (a INTEGER)"⟩

def ageCatalog : Catalog := ⟨[("t", ageTable)], []⟩

theorem emptyTable_wellTyped : WellTyped ageCatalog emptyTable := by
  have hlive : LiveBut ⟨.link 0 [], [], 0⟩ emptyTable [(2, .body (.tableLeaf []))] :=
    ⟨⟨[], rfl, ⟨rfl, Nat.two_pow_pos 32⟩, List.Perm.refl _⟩, emptyTable_live.holds, emptyTable_live.fits, rfl⟩
  have htable : TableAtBut ⟨.link 0 [], [], 0⟩ emptyTable 2 [] (.leaf ⟨2, []⟩ : TableTree 0) :=
    ⟨tableAt_empty (by decide) hlive.live, hlive⟩
  exact ⟨_, Holds.of_table (Forest.of_tableAt htable fun t ht => absurd ht List.not_mem_nil)
    (List.Perm.refl _) (fun r hr => absurd hr List.not_mem_nil) fun t ht => absurd ht List.not_mem_nil⟩

/-- `UPDATE t SET a = 'x'` after `INSERT INTO t VALUES (1)`. -/
def textInInteger : List Request :=
  [⟨.insert ⟨"t", [.literal (.int 1)]⟩, []⟩, ⟨.update ⟨"t", [⟨"a", .literal (.text "x")⟩], none⟩, []⟩]

theorem Succeeds.of_seq {casefold : String → String} {ops : FloatOps} {catalog : Catalog} {s : PageStore}
    {meets : Request → PageStore → Prop} {requests : List Request}
    (hmeets : ∀ request ∈ requests, ∀ s, meets request s)
    (h : (seq (requests.map (Request.run casefold ops catalog)) s).1 = .ok ()) :
    Succeeds casefold ops catalog meets s requests
      (seq (requests.map (Request.run casefold ops catalog)) s).2 := by
  induction requests generalizing s with
  | nil => exact .nil s
  | cons request requests ih =>
      obtain ⟨_, s₁, hstep, hrest⟩ := exists_of_bind_ok (apply_eq h)
      have hseq : seq ((request :: requests).map (Request.run casefold ops catalog)) s =
          seq (requests.map (Request.run casefold ops catalog)) s₁ := bind_of_ok hstep
      rw [hseq] at h ⊢
      exact .cons (hmeets _ (List.mem_cons_self ..) s) hstep
        (ih (fun r hr => hmeets r (List.mem_cons_of_mem _ hr)) h)

/-- `UPDATE t SET a = 5` after `INSERT INTO t VALUES (1)`. -/
def integerInInteger : List Request :=
  [⟨.insert ⟨"t", [.literal (.int 1)]⟩, []⟩, ⟨.update ⟨"t", [⟨"a", .literal (.int 5)⟩], none⟩, []⟩]

theorem integerInInteger_admissible : ∀ request ∈ integerInInteger, ∀ s,
    request.Admissible id noFloats ageCatalog s := by
  intro request hrequest s
  simp only [integerInInteger, List.mem_cons, List.not_mem_nil, or_false] at hrequest
  rcases hrequest with rfl | rfl
  · exact trivial
  · intro bound hbound found _ p _ i column assignment v hcolumn hlast hv
    obtain rfl := Except.ok.inj hbound
    match i with
    | 0 =>
        obtain rfl := Option.some.inj hcolumn
        obtain rfl := Option.some.inj hlast
        obtain rfl := Except.ok.inj hv
        rfl
    | _ + 1 => cases hcolumn

theorem declared_types_hold_integers : ∃ s,
    (seq (integerInInteger.map (Request.run id noFloats ageCatalog)) emptyTable).2 = s ∧
      WellTyped ageCatalog s :=
  ⟨_, rfl, declared_types_hold emptyTable_wellTyped
    (Succeeds.of_seq integerInInteger_admissible (by decide +kernel))⟩

/-- The text stays in the INTEGER column. -/
theorem update_stores_text : WellTyped ageCatalog emptyTable ∧
    ∃ s, Succeeds id noFloats ageCatalog (fun _ _ => True) emptyTable textInInteger s ∧
      ¬ WellTyped ageCatalog s := by
  refine ⟨emptyTable_wellTyped, _, Succeeds.of_seq (fun _ _ _ => trivial) (by decide +kernel), ?_⟩
  rintro ⟨header, hh⟩
  have hscan : (scanMatchingRows noFloats ageTable none
      (seq (textInInteger.map (Request.run id noFloats ageCatalog)) emptyTable).2).1 =
        .ok [(1, [.text "x"])] := by decide +kernel
  have htyped := rowTyped_of_scan (e := ("t", ageTable)) hh (List.mem_singleton.mpr rfl) hscan _
    (List.mem_singleton.mpr rfl)
  cases htyped with
  | cons hadmits _ => exact hadmits

end QuillDb
