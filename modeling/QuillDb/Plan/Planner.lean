/-
  Plan/Planner.lean --- the legal access paths of one table.

  Source: `enumerate_access_paths`, `_match_index_prefix` and `_index_order_path` of
  `quilldb/plan/planner.py`.

  The walk over the columns of an index takes every equality on a column and the first
  two of its other predicates, whatever their operators.  `IndexScan.open` reads what it
  took as one equality per column and then bounds on the next one.
-/
import QuillDb.Plan.Predicates
import QuillDb.Lib.Dict
import Mathlib.Data.List.TakeWhile

set_option autoImplicit false

namespace QuillDb

open Fallible

/-! ## The source -/

/-- `AccessPath.kind`. -/
inductive PathKind where
  | seqScan
  | indexScan
  deriving DecidableEq, Repr

/-- `SortKey`. -/
structure SortKey where
  expression : BoundExpression
  descending : Bool
  deriving DecidableEq

/-- `AccessPath`, before the estimates of the later stages. -/
structure AccessPath where
  kind : PathKind
  index : Option IndexSchema
  seekTerms : List (Object Predicate)
  residual : List (Object Predicate)
  outputOrder : List SortKey := []
  reverse : Bool := false
  deriving DecidableEq

/-- `by_column`: the predicates of each column, in their order. -/
def byColumn (predicates : List (Object Predicate)) : Dict String (List (Object Predicate)) :=
  predicates.foldl (fun d p => d.put p.val.column ((d.lookup p.val.column).getD [] ++ [p])) []

/-- `operator in _EQUALITY_OPERATORS`. -/
def SeekOperator.isEquality : SeekOperator → Bool
  | .eq => true
  | .is => true
  | _ => false

/-- The equalities of a column. -/
def equalities (predicates : List (Object Predicate)) : List (Object Predicate) :=
  predicates.filter fun p => p.val.operator.isEquality

/-- Its other predicates. -/
def inequalities (predicates : List (Object Predicate)) : List (Object Predicate) :=
  predicates.filter fun p => !p.val.operator.isEquality

/-- The loop of `_match_index_prefix` over the columns of the index. -/
def seekTermsOf (columnPredicates : String → List (Object Predicate)) :
    List String → List (Object Predicate)
  | [] => []
  | column :: columns =>
      -- a gap: nothing constrains this column
      if (columnPredicates column).isEmpty then []
      else if (inequalities (columnPredicates column)).isEmpty then
        equalities (columnPredicates column) ++ seekTermsOf columnPredicates columns
      else
        equalities (columnPredicates column) ++ (inequalities (columnPredicates column)).take 2

/-- `_match_index_prefix`. -/
def matchIndexPrefix (index : IndexSchema) (columns : Dict String (List (Object Predicate)))
    (predicates : List (Object Predicate)) : Option AccessPath :=
  let seekTerms := seekTermsOf (fun column => (columns.lookup column).getD []) index.columns
  if seekTerms.isEmpty then none
  else
    let consumedIds := seekTerms.map Object.id
    some {
      kind := .indexScan
      index := some index
      seekTerms := seekTerms
      residual := predicates.filter fun p => p.id ∉ consumedIds }

/-- A column of an index as a key of `output_order`. -/
def outputKey (casefold : String → String) (table : TableSchema) (tableOrdinal : Nat) (reverse : Bool)
    (name : String) : Except DbError SortKey := do
  let i ← table.columnIndex casefold name
  match table.columns[i]? with
  | some column => .ok ⟨.column ⟨i, name, column.dataType, tableOrdinal⟩, reverse⟩
  | none => .error (.indexError "tuple index out of range")

/-- `_index_order_path`. -/
def indexOrderPath (casefold : String → String) (index : IndexSchema)
    (predicates : List (Object Predicate)) (table : TableSchema) (tableOrdinal : Nat) (reverse : Bool) :
    Except DbError AccessPath := do
  let outputOrder ← index.columns.mapM (outputKey casefold table tableOrdinal reverse)
  .ok {
    kind := .indexScan
    index := some index
    seekTerms := []
    residual := predicates
    outputOrder := outputOrder
    reverse := reverse }

/-- The paths of one index: a seek, or a full walk each way. -/
def indexPaths (casefold : String → String) (table : TableSchema)
    (predicates : List (Object Predicate)) (tableOrdinal : Nat) (index : IndexSchema) :
    Except DbError (List AccessPath) :=
  match matchIndexPrefix index (byColumn predicates) predicates with
  | some path => .ok [path]
  | none => do
      let forward ← indexOrderPath casefold index predicates table tableOrdinal false
      let backward ← indexOrderPath casefold index predicates table tableOrdinal true
      .ok [forward, backward]

/-- `enumerate_access_paths`. -/
def enumerateAccessPaths (casefold : String → String) (table : TableSchema) (indexes : List IndexSchema)
    (predicates : List (Object Predicate)) (tableOrdinal : Nat) : Except DbError (List AccessPath) := do
  let paths ← indexes.mapM (indexPaths casefold table predicates tableOrdinal)
  .ok ({ kind := .seqScan, index := none, seekTerms := [], residual := predicates } :: paths.flatten)

/-! ## The contract of a path -/

/-- The operators that the scan turns into an equality or a bound. -/
def SeekOperator.isBound : SeekOperator → Bool
  | .like => false
  | _ => true

/-- The columns of the index that a path seeks on. -/
def AccessPath.columns (path : AccessPath) : List String := (path.index.map IndexSchema.columns).getD []

/-- What `IndexScan.open` relies on: every predicate is sought or checked, once; the
equalities pin the first columns of the index, one each; the other terms bound the
column after these; a predicate that gives no bound is still checked. -/
structure AccessPath.Contract (path : AccessPath) (predicates : List (Object Predicate)) : Prop where
  partition : (path.seekTerms ++ path.residual).Perm predicates
  pinned : (equalities path.seekTerms).map (fun p => p.val.column) <+: path.columns
  bounds : ∀ p ∈ inequalities path.seekTerms, p.val.operator.isBound = true ∧
    path.columns[(equalities path.seekTerms).length]? = some p.val.column
  checked : ∀ p ∈ predicates, p.val.operator.isBound = false → p ∈ path.residual

/-! ## The walk over the columns -/

/-- The predicates of a column. -/
def onColumn (predicates : List (Object Predicate)) (column : String) : List (Object Predicate) :=
  predicates.filter fun p => p.val.column = column

/-- A column that the walk passes has equalities and nothing else. -/
def passes (predicates : List (Object Predicate)) (column : String) : Bool :=
  !(onColumn predicates column).isEmpty && (inequalities (onColumn predicates column)).isEmpty

/-- The columns that the walk passes. -/
def pinnedColumns (predicates : List (Object Predicate)) (columns : List String) : List String :=
  columns.takeWhile (passes predicates)

/-- What the walk takes where it stops. -/
def stopTerms (predicates : List (Object Predicate)) : List String → List (Object Predicate)
  | [] => []
  | column :: _ =>
      equalities (onColumn predicates column) ++ (inequalities (onColumn predicates column)).take 2

/-- The shape of predicates that an index can serve: the columns the walk passes are
different and have one equality each; where it stops, it takes no `LIKE`, and no equality
that a copy of the column does not follow. -/
structure IndexSchema.Seekable (index : IndexSchema) (predicates : List (Object Predicate)) : Prop where
  distinct : (pinnedColumns predicates index.columns).Nodup
  single : ∀ c ∈ pinnedColumns predicates index.columns, (onColumn predicates c).length = 1
  stop : ∀ c rest, index.columns.dropWhile (passes predicates) = c :: rest →
    (∀ p ∈ (inequalities (onColumn predicates c)).take 2, p.val.operator.isBound = true) ∧
      List.replicate (equalities (onColumn predicates c)).length c <+: rest

theorem lookup_foldl_byColumn (predicates : List (Object Predicate)) (column : String)
    (d : Dict String (List (Object Predicate))) :
    ((predicates.foldl (fun d p => d.put p.val.column ((d.lookup p.val.column).getD [] ++ [p])) d).lookup
      column).getD [] = (d.lookup column).getD [] ++ onColumn predicates column := by
  induction predicates generalizing d with
  | nil => exact (List.append_nil _).symm
  | cons p predicates ih =>
      rw [List.foldl_cons, ih, Dict.lookup_put, onColumn, onColumn, List.filter_cons]
      by_cases hcolumn : column = p.val.column
      · rw [if_pos hcolumn, if_pos (by simp [hcolumn]), hcolumn, Option.getD_some, List.append_assoc]
        rfl
      · rw [if_neg hcolumn, if_neg (by simp [Ne.symm hcolumn])]

theorem lookup_byColumn (predicates : List (Object Predicate)) (column : String) :
    ((byColumn predicates).lookup column).getD [] = onColumn predicates column :=
  lookup_foldl_byColumn predicates column []

section Walk

variable {predicates : List (Object Predicate)} {columns : List String}

theorem mem_onColumn {c : String} {p : Object Predicate} :
    p ∈ onColumn predicates c ↔ p ∈ predicates ∧ p.val.column = c := by
  rw [onColumn, List.mem_filter, decide_eq_true_iff]

theorem mem_equalities {ps : List (Object Predicate)} {p : Object Predicate} :
    p ∈ equalities ps ↔ p ∈ ps ∧ p.val.operator.isEquality = true := List.mem_filter

theorem mem_inequalities {ps : List (Object Predicate)} {p : Object Predicate} :
    p ∈ inequalities ps ↔ p ∈ ps ∧ p.val.operator.isEquality = false := by
  rw [inequalities, List.mem_filter, Bool.not_eq_true']

theorem equalities_eq_self {ps : List (Object Predicate)} (h : ∀ p ∈ ps, p.val.operator.isEquality = true) :
    equalities ps = ps ∧ inequalities ps = [] :=
  ⟨List.filter_eq_self.mpr h, List.filter_eq_nil_iff.mpr fun p hp => by simp [h p hp]⟩

theorem inequalities_eq_self {ps : List (Object Predicate)}
    (h : ∀ p ∈ ps, p.val.operator.isEquality = false) : equalities ps = [] ∧ inequalities ps = ps :=
  ⟨List.filter_eq_nil_iff.mpr fun p hp => by simp [h p hp], List.filter_eq_self.mpr fun p hp => by simp [h p hp]⟩

theorem isEquality_of_inequalities_nil {ps : List (Object Predicate)} (h : inequalities ps = [])
    {p : Object Predicate} (hp : p ∈ ps) : p.val.operator.isEquality = true := by
  by_contra hnot
  rw [Bool.not_eq_true] at hnot
  have hmem := mem_inequalities.mpr ⟨hp, hnot⟩
  rw [h] at hmem
  cases hmem

theorem equalities_append (ps qs : List (Object Predicate)) :
    equalities (ps ++ qs) = equalities ps ++ equalities qs := List.filter_append ..

theorem inequalities_append (ps qs : List (Object Predicate)) :
    inequalities (ps ++ qs) = inequalities ps ++ inequalities qs := List.filter_append ..

theorem passes_iff {c : String} :
    passes predicates c = true ↔ onColumn predicates c ≠ [] ∧ inequalities (onColumn predicates c) = [] := by
  rw [passes, Bool.and_eq_true, Bool.not_eq_true', List.isEmpty_eq_false_iff, List.isEmpty_iff]

/-- A column that the walk passes. -/
theorem passes_of_mem {c : String} (h : c ∈ pinnedColumns predicates columns) :
    onColumn predicates c ≠ [] ∧ inequalities (onColumn predicates c) = [] :=
  passes_iff.mp (List.mem_takeWhile_imp h)

/-- The walk does not pass the column it stops at. -/
theorem not_passes_stop {c : String} {rest : List String}
    (h : columns.dropWhile (passes predicates) = c :: rest) : passes predicates c = false := by
  have hnot := List.head?_dropWhile_not (passes predicates) columns
  rw [h] at hnot
  exact hnot

/-- It stops at a column with no predicate, or with one that is no equality. -/
theorem stop_of_not_passes {c : String} (h : passes predicates c = false)
    (hsome : onColumn predicates c ≠ []) : inequalities (onColumn predicates c) ≠ [] := by
  intro hnone
  rw [passes_iff.mpr ⟨hsome, hnone⟩] at h
  cases h

theorem columns_eq (predicates : List (Object Predicate)) (columns : List String) :
    pinnedColumns predicates columns ++ columns.dropWhile (passes predicates) = columns :=
  List.takeWhile_append_dropWhile

theorem getElem?_after_pinned {rest : List String} (h : columns.dropWhile (passes predicates) = rest)
    (i : Nat) : columns[(pinnedColumns predicates columns).length + i]? = rest[i]? := by
  calc columns[(pinnedColumns predicates columns).length + i]?
      = (pinnedColumns predicates columns ++ rest)[(pinnedColumns predicates columns).length + i]? := by
        rw [← h, columns_eq]
    _ = rest[i]? := by rw [List.getElem?_append_right (Nat.le_add_right ..), Nat.add_sub_cancel_left]

/-- What the walk takes. -/
theorem seekTermsOf_eq (predicates : List (Object Predicate)) (columns : List String) :
    seekTermsOf (onColumn predicates) columns =
      (pinnedColumns predicates columns).flatMap (onColumn predicates) ++
        stopTerms predicates (columns.dropWhile (passes predicates)) := by
  induction columns with
  | nil => rfl
  | cons c columns ih =>
      rw [seekTermsOf, pinnedColumns, List.takeWhile_cons, List.dropWhile_cons]
      by_cases hpass : passes predicates c = true
      · obtain ⟨hsome, hnone⟩ := passes_iff.mp hpass
        rw [if_neg (by simp [hsome]), if_pos (by simp [hnone]), ih,
          (equalities_eq_self fun p => isEquality_of_inequalities_nil hnone).1, if_pos hpass, if_pos hpass, List.flatMap_cons,
          List.append_assoc]
        rfl
      · rw [if_neg hpass, if_neg hpass, List.flatMap_nil, List.nil_append, stopTerms]
        by_cases hgap : onColumn predicates c = []
        · rw [hgap]
          rfl
        · rw [if_neg (by simp [hgap]), if_neg fun hnone => hpass (passes_iff.mpr ⟨hgap, List.isEmpty_iff.mp hnone⟩)]

theorem mem_of_mem_stopTerms {p : Object Predicate} {c : String} {rest : List String}
    (hp : p ∈ stopTerms predicates (c :: rest)) : p ∈ onColumn predicates c := by
  rcases List.mem_append.mp hp with hp | hp
  · exact (mem_equalities.mp hp).1
  · exact (mem_inequalities.mp (List.mem_of_mem_take hp)).1

theorem seekTermsOf_subset {p : Object Predicate}
    (hp : p ∈ seekTermsOf (onColumn predicates) columns) : p ∈ predicates := by
  rw [seekTermsOf_eq, List.mem_append, List.mem_flatMap] at hp
  rcases hp with ⟨c, -, hmem⟩ | hmem
  · exact (mem_onColumn.mp hmem).1
  · cases hstop : columns.dropWhile (passes predicates) with
    | nil =>
        rw [hstop] at hmem
        cases hmem
    | cons c rest =>
        rw [hstop] at hmem
        exact (mem_onColumn.mp (mem_of_mem_stopTerms hmem)).1

theorem isEquality_of_passed {p : Object Predicate}
    (hp : p ∈ (pinnedColumns predicates columns).flatMap (onColumn predicates)) :
    p.val.operator.isEquality = true := by
  obtain ⟨c, hc, hmem⟩ := List.mem_flatMap.mp hp
  exact isEquality_of_inequalities_nil (passes_of_mem hc).2 hmem

/-- The equalities that the walk takes. -/
theorem equalities_seekTermsOf (predicates : List (Object Predicate)) (columns : List String) :
    equalities (seekTermsOf (onColumn predicates) columns) =
      (pinnedColumns predicates columns).flatMap (onColumn predicates) ++
        equalities (stopTerms predicates (columns.dropWhile (passes predicates))) := by
  rw [seekTermsOf_eq, equalities_append, (equalities_eq_self fun p => isEquality_of_passed).1]

/-- The other predicates that it takes. -/
theorem inequalities_seekTermsOf (predicates : List (Object Predicate)) (columns : List String) :
    inequalities (seekTermsOf (onColumn predicates) columns) =
      inequalities (stopTerms predicates (columns.dropWhile (passes predicates))) := by
  rw [seekTermsOf_eq, inequalities_append, (equalities_eq_self fun p => isEquality_of_passed).2,
    List.nil_append]

theorem stopTerms_cons (predicates : List (Object Predicate)) (c : String) (rest : List String) :
    equalities (stopTerms predicates (c :: rest)) = equalities (onColumn predicates c) ∧
      inequalities (stopTerms predicates (c :: rest)) = (inequalities (onColumn predicates c)).take 2 := by
  have heq : equalities (equalities (onColumn predicates c)) = equalities (onColumn predicates c) ∧
      inequalities (equalities (onColumn predicates c)) = [] :=
    equalities_eq_self fun p hp => (mem_equalities.mp hp).2
  have hineq : equalities ((inequalities (onColumn predicates c)).take 2) = [] ∧
      inequalities ((inequalities (onColumn predicates c)).take 2) =
        (inequalities (onColumn predicates c)).take 2 :=
    inequalities_eq_self fun p hp => (mem_inequalities.mp (List.mem_of_mem_take hp)).2
  rw [stopTerms, equalities_append, inequalities_append, heq.1, heq.2, hineq.1, hineq.2,
    List.append_nil, List.nil_append]
  exact ⟨rfl, rfl⟩

/-- The walk takes no predicate twice exactly if it passes no column twice. -/
theorem nodup_seekTermsOf (hpredicates : predicates.Nodup) :
    (seekTermsOf (onColumn predicates) columns).Nodup ↔ (pinnedColumns predicates columns).Nodup := by
  rw [seekTermsOf_eq]
  constructor
  · intro hnodup
    have hpinned := List.Nodup.of_append_left hnodup
    rw [List.nodup_flatMap] at hpinned
    -- two places of one column would give its predicates twice
    refine hpinned.2.imp_of_mem fun {c d} hc hd hdisjoint heq => ?_
    obtain ⟨p, hp⟩ := List.exists_mem_of_ne_nil _ (passes_of_mem hc).1
    exact hdisjoint hp (heq ▸ hp)
  · intro hpinned
    have hcolumn : ∀ c, (onColumn predicates c).Nodup := fun c => hpredicates.filter _
    refine List.Nodup.append ?_ ?_ ?_
    · rw [List.nodup_flatMap]
      refine ⟨fun c _ => hcolumn c, hpinned.imp fun {c d} hne p hp hp' => hne ?_⟩
      exact (mem_onColumn.mp hp).2.symm.trans (mem_onColumn.mp hp').2
    · cases columns.dropWhile (passes predicates) with
      | nil => exact List.nodup_nil
      | cons c rest =>
          refine List.Nodup.append ((hcolumn c).filter _) (((hcolumn c).filter _).sublist (List.take_sublist ..)) ?_
          intro p hp hp'
          have heq := (mem_equalities.mp hp).2
          rw [(mem_inequalities.mp (List.mem_of_mem_take hp')).2] at heq
          cases heq
    · intro p hp hp'
      obtain ⟨d, hd, hmem⟩ := List.mem_flatMap.mp hp
      cases hstop : columns.dropWhile (passes predicates) with
      | nil =>
          rw [hstop] at hp'
          cases hp'
      | cons c rest =>
          rw [hstop] at hp'
          have hsame : d = c :=
            (mem_onColumn.mp hmem).2.symm.trans (mem_onColumn.mp (mem_of_mem_stopTerms hp')).2
          have hpass := passes_iff.mpr (passes_of_mem hd)
          rw [hsame, not_passes_stop hstop] at hpass
          cases hpass

end Walk

/-! ## Columns and their copies -/

/-- Each of the first, different, names written at least once: this begins a list that
starts with these names exactly if each is written once. -/
theorem copies_prefix_iff {count : String → Nat} {pinned tail : List String} (last : List String)
    (hnodup : pinned.Nodup) (hpos : ∀ c ∈ pinned, 0 < count c)
    (hnext : ∀ c ∈ pinned, tail.head? ≠ some c) :
    pinned.flatMap (fun c => List.replicate (count c) c) ++ last <+: pinned ++ tail ↔
      (∀ c ∈ pinned, count c = 1) ∧ last <+: tail := by
  induction pinned with
  | nil => simp
  | cons c pinned ih =>
      obtain ⟨hnot, hnodup⟩ := List.nodup_cons.mp hnodup
      have ihrest := ih hnodup (fun d hd => hpos d (List.mem_cons_of_mem _ hd))
        fun d hd => hnext d (List.mem_cons_of_mem _ hd)
      obtain ⟨n, hn⟩ := Nat.exists_eq_add_of_lt (hpos c (List.mem_cons_self ..))
      rw [List.flatMap_cons, hn, Nat.zero_add, List.replicate_succ, List.cons_append, List.cons_append,
        List.cons_append, List.prefix_cons_inj, List.forall_mem_cons, hn, Nat.zero_add]
      cases n with
      | zero =>
          rw [List.replicate_zero, List.nil_append, ihrest]
          simp
      | succ n =>
          -- a second copy would have to be the next name
          refine iff_of_false ?_ (by simp)
          rw [List.replicate_succ, List.cons_append, List.cons_append]
          intro hprefix
          cases pinned with
          | nil =>
              obtain ⟨rest, htail⟩ := hprefix
              exact hnext c (List.mem_cons_self ..) (by rw [← List.nil_append tail, ← htail]; rfl)
          | cons d pinned =>
              obtain ⟨rest, htail⟩ := hprefix
              exact hnot ((List.cons.inj htail).1 ▸ List.mem_cons_self ..)

/-- Copies of a name, with one more of it after them. -/
theorem replicate_prefix_iff {c : String} {rest : List String} (m : Nat) :
    List.replicate m c <+: c :: rest ∧ (c :: rest)[m]? = some c ↔ List.replicate m c <+: rest := by
  simp only [List.prefix_iff_getElem?, List.length_replicate, List.getElem_replicate]
  constructor
  · rintro ⟨hcopies, hnext⟩ i hi
    rw [← List.getElem?_cons_succ]
    rcases Nat.lt_or_ge (i + 1) m with hlt | hge
    · exact hcopies (i + 1) hlt
    · obtain rfl : m = i + 1 := by omega
      exact hnext
  · intro hcopies
    have hall : ∀ i, i ≤ m → (c :: rest)[i]? = some c := by
      intro i hi
      cases i with
      | zero => rfl
      | succ i => exact hcopies i hi
    exact ⟨fun i hi => hall i hi.le, hall m le_rfl⟩

/-! ## When a path meets its contract -/

section Contract

variable {predicates : List (Object Predicate)}

theorem map_column_onColumn {c : String} {ps : List (Object Predicate)}
    (h : ∀ p ∈ ps, p ∈ onColumn predicates c) :
    ps.map (fun p => p.val.column) = List.replicate ps.length c := by
  rw [List.eq_replicate_iff, List.length_map]
  refine ⟨rfl, fun d hd => ?_⟩
  obtain ⟨p, hp, rfl⟩ := List.mem_map.mp hd
  exact (mem_onColumn.mp (h p hp)).2

/-- The names that the stopping column's equalities give. -/
def stopCopies (predicates : List (Object Predicate)) : List String → List String
  | [] => []
  | column :: _ => List.replicate (equalities (onColumn predicates column)).length column

theorem map_column_equalities (predicates : List (Object Predicate)) (columns : List String) :
    (equalities (seekTermsOf (onColumn predicates) columns)).map (fun p => p.val.column) =
      (pinnedColumns predicates columns).flatMap
          (fun c => List.replicate (onColumn predicates c).length c) ++
        stopCopies predicates (columns.dropWhile (passes predicates)) := by
  rw [equalities_seekTermsOf, List.map_append, List.map_flatMap]
  congr 1
  · exact congrArg (List.flatMap · _) (funext fun c => map_column_onColumn fun p hp => hp)
  · cases columns.dropWhile (passes predicates) with
    | nil => rfl
    | cons c rest =>
        rw [(stopTerms_cons predicates c rest).1]
        exact map_column_onColumn fun p hp => (mem_equalities.mp hp).1

/-- One equality for each column passed, and those of the stopping column. -/
theorem length_equalities {columns : List String}
    (hsingle : ∀ c ∈ pinnedColumns predicates columns, (onColumn predicates c).length = 1) :
    (equalities (seekTermsOf (onColumn predicates) columns)).length =
      (pinnedColumns predicates columns).length +
        (stopCopies predicates (columns.dropWhile (passes predicates))).length := by
  have hlen := congrArg List.length (map_column_equalities predicates columns)
  rw [List.length_map, List.length_append, List.length_flatMap] at hlen
  rw [hlen]
  congr 1
  rw [List.map_congr_left (g := fun _ => 1) fun c hc => by rw [List.length_replicate, hsingle c hc],
    List.map_const', List.sum_replicate_nat, Nat.mul_one]

/-- Every predicate is sought or checked, once, exactly if none is sought twice. -/
theorem partition_iff {terms : List (Object Predicate)} (hids : (predicates.map Object.id).Nodup)
    (hsub : ∀ p ∈ terms, p ∈ predicates) :
    (terms ++ predicates.filter fun p => p.id ∉ terms.map Object.id).Perm predicates ↔ terms.Nodup := by
  have hpredicates := hids.of_map
  have hmem : ∀ p ∈ predicates, p.id ∈ terms.map Object.id ↔ p ∈ terms := by
    refine fun p hp => ⟨fun h => ?_, fun h => List.mem_map_of_mem h⟩
    obtain ⟨q, hq, hid⟩ := List.mem_map.mp h
    exact List.inj_on_of_nodup_map hids (hsub q hq) hp hid ▸ hq
  constructor
  · exact fun hperm => (hperm.nodup_iff.mpr hpredicates).of_append_left
  · intro hterms
    refine (List.perm_ext_iff_of_nodup ?_ hpredicates).mpr fun p => ?_
    · refine hterms.append (hpredicates.filter _) fun p hp hp' => ?_
      exact absurd (List.mem_map_of_mem hp) (of_decide_eq_true (List.mem_filter.mp hp').2)
    · rw [List.mem_append, List.mem_filter, decide_eq_true_iff]
      constructor
      · rintro (hp | ⟨hp, -⟩)
        · exact hsub p hp
        · exact hp
      · intro hp
        by_cases hterm : p ∈ terms
        · exact .inl hterm
        · exact .inr ⟨hp, fun h => hterm ((hmem p hp).mp h)⟩

theorem prefix_iff_seekable {columns : List String} (hdistinct : (pinnedColumns predicates columns).Nodup) :
    (equalities (seekTermsOf (onColumn predicates) columns)).map (fun p => p.val.column) <+: columns ↔
      (∀ c ∈ pinnedColumns predicates columns, (onColumn predicates c).length = 1) ∧
        stopCopies predicates (columns.dropWhile (passes predicates)) <+:
          columns.dropWhile (passes predicates) := by
  rw [map_column_equalities]
  conv_lhs =>
    rhs
    rw [← columns_eq predicates columns]
  refine copies_prefix_iff _ hdistinct (fun c hc => List.length_pos_iff.mpr (passes_of_mem hc).1) ?_
  intro c hc hhead
  have hpass := passes_iff.mpr (passes_of_mem hc)
  cases hstop : columns.dropWhile (passes predicates) with
  | nil =>
      rw [hstop] at hhead
      cases hhead
  | cons d rest =>
      rw [hstop] at hhead
      obtain rfl := Option.some.inj hhead
      rw [not_passes_stop hstop] at hpass
      cases hpass

/-- A seek of the index meets the contract exactly if the predicates have the shape
that the index can serve. -/
theorem contract_seek_iff {index : IndexSchema} (hids : (predicates.map Object.id).Nodup)
    {path : AccessPath} (hindex : path.index = some index)
    (hterms : path.seekTerms = seekTermsOf (onColumn predicates) index.columns)
    (hresidual : path.residual = predicates.filter fun p => p.id ∉ path.seekTerms.map Object.id) :
    path.Contract predicates ↔ index.Seekable predicates := by
  have hcolumns : path.columns = index.columns := by
    rw [AccessPath.columns, hindex]
    rfl
  have hsub : ∀ p ∈ path.seekTerms, p ∈ predicates := fun p hp => seekTermsOf_subset (hterms ▸ hp)
  have hpartition := partition_iff hids hsub
  have hnodup : (seekTermsOf (onColumn predicates) index.columns).Nodup ↔
      (pinnedColumns predicates index.columns).Nodup := nodup_seekTermsOf hids.of_map
  constructor
  · intro hcontract
    have hdistinct := hnodup.mp (hterms ▸ hpartition.mp (hresidual ▸ hcontract.partition))
    have hpinned := hcontract.pinned
    rw [hterms, hcolumns, prefix_iff_seekable hdistinct] at hpinned
    obtain ⟨hsingle, hcopies⟩ := hpinned
    refine ⟨hdistinct, hsingle, fun c rest hstop => ?_⟩
    have hbound : ∀ p ∈ (inequalities (onColumn predicates c)).take 2,
        p ∈ inequalities path.seekTerms := by
      intro p hp
      rwa [hterms, inequalities_seekTermsOf, hstop, (stopTerms_cons predicates c rest).2]
    rw [hstop] at hcopies
    refine ⟨fun p hp => (hcontract.bounds p (hbound p hp)).1, ?_⟩
    by_cases hgap : onColumn predicates c = []
    · rw [hgap]
      exact List.nil_prefix
    · obtain ⟨p, hp⟩ : ∃ p, p ∈ (inequalities (onColumn predicates c)).take 2 := by
        have hne := stop_of_not_passes (not_passes_stop hstop) hgap
        exact List.exists_mem_of_ne_nil _ (by simpa [List.take_eq_nil_iff] using hne)
      have hnext := (hcontract.bounds p (hbound p hp)).2
      have hcolumn := (mem_onColumn.mp (mem_inequalities.mp (List.mem_of_mem_take hp)).1).2
      rw [hcolumns, hterms, length_equalities hsingle, hstop, hcolumn, getElem?_after_pinned hstop,
        stopCopies, List.length_replicate] at hnext
      exact (replicate_prefix_iff _).mp ⟨hcopies, hnext⟩
  · intro hseek
    have hcopies : stopCopies predicates (index.columns.dropWhile (passes predicates)) <+:
        index.columns.dropWhile (passes predicates) := by
      cases hstop : index.columns.dropWhile (passes predicates) with
      | nil => exact List.nil_prefix
      | cons c rest => exact ((replicate_prefix_iff _).mpr (hseek.stop c rest hstop).2).1
    have hbounds : ∀ p ∈ inequalities path.seekTerms, p.val.operator.isBound = true ∧
        path.columns[(equalities path.seekTerms).length]? = some p.val.column := by
      intro p hp
      rw [hterms, inequalities_seekTermsOf] at hp
      rw [hterms, hcolumns, length_equalities hseek.single]
      cases hstop : index.columns.dropWhile (passes predicates) with
      | nil =>
          rw [hstop] at hp
          cases hp
      | cons c rest =>
          rw [hstop, (stopTerms_cons predicates c rest).2] at hp
          obtain ⟨hop, hprefix⟩ := hseek.stop c rest hstop
          refine ⟨hop p hp, ?_⟩
          have hcolumn := (mem_onColumn.mp (mem_inequalities.mp (List.mem_of_mem_take hp)).1).2
          rw [hcolumn, getElem?_after_pinned hstop, stopCopies, List.length_replicate]
          exact ((replicate_prefix_iff _).mpr hprefix).2
    refine ⟨?_, ?_, hbounds, ?_⟩
    · rw [hresidual]
      exact hpartition.mpr (hterms ▸ hnodup.mpr hseek.distinct)
    · rw [hterms, hcolumns, prefix_iff_seekable hseek.distinct]
      exact ⟨hseek.single, hcopies⟩
    · intro p hp hop
      have hnot : p ∉ path.seekTerms := by
        intro hterm
        cases heq : p.val.operator.isEquality with
        | true =>
            revert heq hop
            cases p.val.operator <;> decide
        | false =>
            rw [(hbounds p (mem_inequalities.mpr ⟨hterm, heq⟩)).1] at hop
            cases hop
      rw [hresidual, List.mem_filter, decide_eq_true_iff]
      refine ⟨hp, fun hid => hnot ?_⟩
      obtain ⟨q, hq, heq⟩ := List.mem_map.mp hid
      exact List.inj_on_of_nodup_map hids (hsub q hq) hp heq ▸ hq

/-- A path that seeks nothing meets the contract. -/
theorem contract_of_no_seek {path : AccessPath} (hterms : path.seekTerms = [])
    (hresidual : path.residual = predicates) : path.Contract predicates := by
  refine ⟨?_, ?_, ?_, ?_⟩
  · rw [hterms, hresidual]
    exact List.Perm.refl _
  · rw [hterms]
    exact List.nil_prefix
  · intro p hp
    rw [hterms] at hp
    cases hp
  · intro p hp _
    rwa [hresidual]

/-- An index with nothing to seek on asks nothing of the predicates. -/
theorem seekable_of_no_terms {index : IndexSchema}
    (h : seekTermsOf (onColumn predicates) index.columns = []) : index.Seekable predicates := by
  rw [seekTermsOf_eq, List.append_eq_nil_iff, List.flatMap_eq_nil_iff] at h
  obtain ⟨hpinned, hstop⟩ := h
  have hnil : pinnedColumns predicates index.columns = [] :=
    List.eq_nil_iff_forall_not_mem.mpr fun c hc => (passes_of_mem hc).1 (hpinned c hc)
  refine ⟨hnil ▸ List.nodup_nil, fun c hc => ?_, fun c rest hdrop => ?_⟩
  · rw [hnil] at hc
    cases hc
  · rw [hdrop, stopTerms, List.append_eq_nil_iff] at hstop
    rw [hstop.1, hstop.2]
    refine ⟨fun p hp => ?_, List.nil_prefix⟩
    cases hp

theorem indexPaths_contract_iff {casefold : String → String} {table : TableSchema} {tableOrdinal : Nat}
    {index : IndexSchema} {paths : List AccessPath} (hids : (predicates.map Object.id).Nodup)
    (h : indexPaths casefold table predicates tableOrdinal index = .ok paths) :
    (∀ path ∈ paths, path.Contract predicates) ↔ index.Seekable predicates := by
  have hcolumns : (fun column => ((byColumn predicates).lookup column).getD []) = onColumn predicates :=
    funext fun column => lookup_byColumn predicates column
  unfold indexPaths matchIndexPrefix at h
  simp only [hcolumns] at h
  by_cases hterms : seekTermsOf (onColumn predicates) index.columns = []
  · rw [if_pos (List.isEmpty_iff.mpr hterms)] at h
    obtain ⟨forward, hforward, h⟩ := bind_eq_ok h
    obtain ⟨backward, hbackward, h⟩ := bind_eq_ok h
    obtain ⟨_, -, hforward⟩ := bind_eq_ok hforward
    obtain ⟨_, -, hbackward⟩ := bind_eq_ok hbackward
    obtain rfl := Except.ok.inj h
    obtain rfl := Except.ok.inj hforward
    obtain rfl := Except.ok.inj hbackward
    refine iff_of_true (fun path hpath => ?_) (seekable_of_no_terms hterms)
    rcases List.mem_cons.mp hpath with rfl | hpath
    · exact contract_of_no_seek rfl rfl
    · obtain rfl := List.mem_singleton.mp hpath
      exact contract_of_no_seek rfl rfl
  · rw [if_neg fun hnil => hterms (List.isEmpty_iff.mp hnil)] at h
    obtain rfl := Except.ok.inj h
    rw [List.forall_mem_singleton]
    exact contract_seek_iff hids rfl rfl rfl

/-- The paths of several indexes. -/
theorem flatten_contract_iff {casefold : String → String} {table : TableSchema} {tableOrdinal : Nat}
    {indexes : List IndexSchema} {pathss : List (List AccessPath)}
    (hids : (predicates.map Object.id).Nodup)
    (h : List.Forall₂ (fun index paths => indexPaths casefold table predicates tableOrdinal index = .ok paths)
      indexes pathss) :
    (∀ path ∈ pathss.flatten, path.Contract predicates) ↔ ∀ index ∈ indexes, index.Seekable predicates := by
  induction h with
  | nil => simp
  | cons hindex _ ih =>
      rw [List.flatten_cons, List.forall_mem_append, List.forall_mem_cons, ih,
        indexPaths_contract_iff hids hindex]

end Contract

/-- The paths of a table's conjuncts all meet the contract exactly if these have, for
every index, the shape that the index can serve. -/
theorem enumerateAccessPaths_contract_iff {casefold : String → String} {table : TableSchema}
    {indexes : List IndexSchema} {conjuncts : List BoundExpression} {tableOrdinal : Nat}
    {paths : List AccessPath}
    (h : enumerateAccessPaths casefold table indexes (classifiedPredicates conjuncts tableOrdinal)
      tableOrdinal = .ok paths) :
    (∀ path ∈ paths, path.Contract (classifiedPredicates conjuncts tableOrdinal)) ↔
      ∀ index ∈ indexes, index.Seekable (classifiedPredicates conjuncts tableOrdinal) := by
  obtain ⟨pathss, hpaths, h⟩ := bind_eq_ok h
  obtain rfl := Except.ok.inj h
  have hids := classifiedPredicates_nodup conjuncts tableOrdinal
  have hscan : AccessPath.Contract
      { kind := .seqScan, index := none, seekTerms := []
        residual := classifiedPredicates conjuncts tableOrdinal }
      (classifiedPredicates conjuncts tableOrdinal) := contract_of_no_seek rfl rfl
  rw [List.forall_mem_cons, and_iff_right hscan]
  exact flatten_contract_iff hids (mapM_ok hpaths)

/-- One table `people (name TEXT, age INTEGER)`. -/
def peopleTable : TableSchema :=
  ⟨"people", [⟨"name", .text⟩, ⟨"age", .integer⟩], 2, "CREATE TABLE people (name TEXT, age INTEGER)"⟩

/-- Its index on both columns. -/
def peopleIndex : IndexSchema :=
  ⟨"people_name_age", "people", ["name", "age"], false, 3,
    "CREATE INDEX people_name_age ON people (name, age)"⟩

/-- `name = 'ada' AND age > 20`. -/
def equalityThenRange : List BoundExpression :=
  [.binaryOp (.column ⟨0, "name", .text, 0⟩) .eq (.literal (.text "ada")),
    .binaryOp (.column ⟨1, "age", .integer, 0⟩) .gt (.literal (.int 20))]

/-- `name LIKE 'ada%'`. -/
def likePrefix : List BoundExpression :=
  [.binaryOp (.column ⟨0, "name", .text, 0⟩) .like (.literal (.text "ada%"))]

/-- An equality and then a range: every path meets the contract. -/
theorem equality_then_range_contract :
    ∃ paths, enumerateAccessPaths id peopleTable [peopleIndex] (classifiedPredicates equalityThenRange 0) 0 =
        .ok paths ∧
      (paths.map fun path => path.seekTerms.length) = [0, 2] ∧
      ∀ path ∈ paths, path.Contract (classifiedPredicates equalityThenRange 0) := by
  obtain ⟨paths, hrun, hterms⟩ : ∃ paths, enumerateAccessPaths id peopleTable [peopleIndex]
      (classifiedPredicates equalityThenRange 0) 0 = .ok paths ∧
      (paths.map fun path => path.seekTerms.length) = [0, 2] := ⟨_, rfl, by decide +kernel⟩
  refine ⟨paths, hrun, hterms, (enumerateAccessPaths_contract_iff hrun).mpr ?_⟩
  rw [List.forall_mem_singleton]
  refine ⟨by decide +kernel, by decide +kernel, fun c rest h => ?_⟩
  have hdrop : peopleIndex.columns.dropWhile
      (passes (classifiedPredicates equalityThenRange 0)) = ["age"] := by decide +kernel
  rw [hdrop] at h
  obtain ⟨rfl, rfl⟩ := List.cons.inj h
  decide +kernel

/-- `name LIKE 'ada%'` is taken out of the residual, and the scan makes no bound of it. -/
theorem like_prefix_contract_fails :
    ∃ paths, enumerateAccessPaths id peopleTable [peopleIndex] (classifiedPredicates likePrefix 0) 0 = .ok paths ∧
      ¬ ∀ path ∈ paths, path.Contract (classifiedPredicates likePrefix 0) := by
  refine ⟨_, rfl, fun hall => ?_⟩
  have hpath := hall _ (List.mem_cons_of_mem _ (List.mem_cons_self ..))
  have hmem := hpath.checked _ (List.mem_cons_self ..) rfl
  revert hmem
  decide +kernel

end QuillDb
