/-
  Exec/Sources.lean --- the rows that WHERE is TRUE of, by any access path.

  Source: `_build_single_table_source` of `quilldb/exec/operators.py`, `rebuild_access_path`
  of `quilldb/plan/planner.py`.

  A scan and the filter over it return the rows that WHERE is TRUE of, whichever path was
  chosen, and a walk over an index returns them in the order that the path promises.
-/
import QuillDb.Exec.Comparison
import QuillDb.Exec.InStep
import QuillDb.Exec.Where
import QuillDb.Plan.Shapes

set_option autoImplicit false

namespace QuillDb

open Prog PageStore Fallible

/-! ## Filters -/

section Filter

variable {ops : FloatOps} {s : PageStore} {sameRow : List Value → List Value → Bool}

/-- Conjuncts that have a value have one together. -/
theorem exists_evaluate_and {row : List Value} {l r : BoundExpression} (hl : ∃ v, evaluate ops row l = .ok v)
    (hr : ∃ v, evaluate ops row r = .ok v) : ∃ v, evaluate ops row (.binaryOp l .and r) = .ok v := by
  obtain ⟨v, hv⟩ := hl
  obtain ⟨w, hw⟩ := hr
  rw [evaluate, hv, hw]
  simp only [ok_bind]
  split
  · exact ⟨_, rfl⟩
  · split <;> exact ⟨_, rfl⟩

theorem exists_evaluate_andAll {row : List Value} {cs : List BoundExpression} {e : BoundExpression}
    (h : andAll cs = some e) (hcs : ∀ c ∈ cs, ∃ v, evaluate ops row c = .ok v) : ∃ v, evaluate ops row e = .ok v := by
  cases cs with
  | nil => cases h
  | cons c cs =>
      cases h
      rw [List.forall_mem_cons] at hcs
      obtain ⟨hc, hcs⟩ := hcs
      induction cs generalizing c with
      | nil => exact hc
      | cons d cs ih =>
          rw [List.forall_mem_cons] at hcs
          exact ih _ (exists_evaluate_and hc hcs.1) hcs.2

/-- A filter keeps the rows that its expressions are TRUE of. -/
theorem filtered_pulls {operator : Operator} {outer : List Value} {rows : List (Int × List Value)}
    {cs : List BoundExpression} (hpulls : operator.pulls ops s sameRow outer = rows.map fun row => .ok row.2)
    (hcs : ∀ row ∈ rows, ∀ c ∈ cs, ∃ v, evaluate ops row.2 c = .ok v) :
    (operator.filtered (andAll cs)).pulls ops s sameRow outer =
      (rows.filter fun row => cs.all (isTrue ops row.2)).map fun row => .ok row.2 := by
  cases hfilter : andAll cs with
  | none =>
      cases cs with
      | nil => simp [Operator.filtered, hpulls]
      | cons c cs => cases hfilter
  | some e =>
      rw [Operator.filtered, Operator.pulls, hpulls]
      clear hpulls
      induction rows with
      | nil => rfl
      | cons row rows ih =>
          rw [List.forall_mem_cons] at hcs
          obtain ⟨v, hv⟩ := exists_evaluate_andAll hfilter hcs.1
          have htrue : cs.all (isTrue ops row.2) = wherePasses v := by
            rw [← whereTrue_andAll, hfilter, whereTrue, Option.all_some, isTrue_of_ok hv]
          rw [List.map_cons, List.flatMap_cons, ih hcs.2, List.filter_cons, htrue, onRow, filterRow, hv]
          simp only
          split <;> rfl

end Filter

/-! ## Rows in the order of an index -/

section Order

variable {positions : List Nat} {rows ordered : List (Int × List Value)} {keys : List (List Value)}

theorem keyPlace_of_alike {as bs : List Value} (h : List.Forall₂ Value.Alike as bs) : keyPlace as = keyPlace bs := by
  induction h with
  | nil => rfl
  | cons hab _ ih => rw [keyPlace, keyPlace, List.map_cons, List.map_cons, hab.2.2, ← keyPlace, ih, ← keyPlace]

/-- Rows in the order of their keys. -/
theorem InKeyOrder.sorted (h : InKeyOrder positions rows keys ordered) (hindexed : Indexed positions rows keys) :
    ordered.Pairwise fun a b => compareKeys (keyAt positions a.2) (keyAt positions b.2) ≠ .gt := by
  have haligned := List.forall₂_iff_get.mp h.aligned
  refine List.pairwise_iff_get.mpr fun i j hij => ?_
  have hlen := haligned.1
  have hle := List.pairwise_iff_get.mp hindexed.sorted.ordered ⟨i, by omega⟩ ⟨j, by omega⟩ hij
  obtain ⟨values, hkey, hvalues⟩ := haligned.2 i (by omega) i.isLt
  obtain ⟨values', hkey', hvalues'⟩ := haligned.2 j (by omega) j.isLt
  have hcomparable := hindexed.sorted.comparable _ (List.get_mem keys ⟨i, by omega⟩)
  have hcomparable' := hindexed.sorted.comparable _ (List.get_mem keys ⟨j, by omega⟩)
  rw [← compareKeys_le hcomparable hcomparable', hkey, hkey',
    compareKeys_append (hvalues.length_eq.trans (by simp [length_keyAt, hvalues'.length_eq]))] at hle
  have hcut : compareKeys values values' ≠ .gt := by
    intro hgt
    rw [hgt] at hle
    exact hle rfl
  have hrow := hindexed.comparable_keyAt (h.perm.mem_iff.mp (List.get_mem ordered i))
  have hrow' := hindexed.comparable_keyAt (h.perm.mem_iff.mp (List.get_mem ordered j))
  have hfirst : Comparable positions.length values :=
    ⟨by simpa [length_keyAt] using hvalues.length_eq, fun v hv => hcomparable.2 v (by rw [hkey]; exact List.mem_append_left _ hv)⟩
  rw [compareKeys_alike hvalues', compareKeys_le hfirst hrow', keyPlace_of_alike hvalues, ← compareKeys_le hrow hrow']
    at hcut
  exact hcut

/-- The keys of ORDER BY over columns at these positions, all in one direction. -/
def walkKeys (positions : List Nat) (reverse : Bool) : List BoundOrderKey := positions.map fun i => ⟨i, reverse⟩

theorem compareRows_walkKeys (positions : List Nat) (reverse : Bool) (a b : List Value) :
    compareRows a b (walkKeys positions reverse) =
      if reverse then (compareKeys (keyAt positions a) (keyAt positions b)).swap
      else compareKeys (keyAt positions a) (keyAt positions b) := by
  induction positions with
  | nil => cases reverse <;> rfl
  | cons i positions ih =>
      have hcons : walkKeys (i :: positions) reverse = ⟨i, reverse⟩ :: walkKeys positions reverse := rfl
      have hkey : ∀ row, keyAt (i :: positions) row = row.getD i .null :: keyAt positions row := fun row => rfl
      rw [hcons, compareRows, ih, hkey, hkey,
        compareKeys_cons (a.getD i .null) (b.getD i .null) (keyAt positions a) (keyAt positions b)]
      cases reverse with
      | false => simp
      | true => simp [Ordering.swap_then]

/-- What is kept of a sorted walk is sorted. -/
theorem InKeyOrder.walk_sorted (h : InKeyOrder positions rows keys ordered) (hindexed : Indexed positions rows keys)
    {path : AccessPath} (hterms : path.seekTerms = []) (p : Int × List Value → Bool) :
    ((path.walk ordered).filter p).Pairwise fun a b =>
      compareRows a.2 b.2 (walkKeys positions path.reverse) ≠ .gt := by
  apply List.Pairwise.sublist List.filter_sublist
  have hsorted := h.sorted hindexed
  simp only [compareRows_walkKeys]
  cases hreverse : path.reverse with
  | false =>
      have hwalk : path.walk ordered = ordered := by simp [AccessPath.walk, hreverse]
      simpa [hwalk] using hsorted
  | true =>
      have hwalk : path.walk ordered = ordered.reverse := by simp [AccessPath.walk, hreverse, hterms]
      rw [hwalk, List.pairwise_reverse]
      refine hsorted.imp_of_mem fun {a b} ha hb hab => ?_
      have hrow := hindexed.comparable_keyAt (h.perm.mem_iff.mp ha)
      have hrow' := hindexed.comparable_keyAt (h.perm.mem_iff.mp hb)
      rw [compareKeys_swap hrow hrow']
      simpa using hab

end Order

/-! ## Access paths -/

/-- An index returns what is sought and no more: the predicates have the shape that it can
serve, and no row slips through the bounds. -/
structure IndexSchema.Serves (ops : FloatOps) (casefold : String → String) (table : TableSchema)
    (rows : List (List Value)) (predicates : List (Object Predicate)) (index : IndexSchema) : Prop where
  seekable : index.Seekable predicates
  tight : ∀ ranges, List.Forall₂ (IsTerm ops []) (inequalities (seekTermsOf (onColumn predicates) index.columns)) ranges →
    ∀ p ∈ inequalities (seekTermsOf (onColumn predicates) index.columns), ∀ i,
      table.columnIndex casefold p.val.column = .ok i → ∀ row ∈ rows, ¬ SlipsThrough ops ranges (row.getD i .null)

/-- Nothing in a clause raises on the rows, nor where an index takes the values it seeks. -/
structure Evaluable (ops : FloatOps) (condition : Option BoundExpression) (rows : List (List Value)) : Prop where
  conjuncts : ∀ row ∈ rows, ∀ c ∈ extractConjuncts condition, ∃ v, evaluate ops row c = .ok v
  sought : ∀ p ∈ classifiedPredicates (extractConjuncts condition) 0, ∃ v, evaluate ops [] p.val.value = .ok v

/-- A key of an order that a walk gives: the column at a position. -/
def SortKey.At (reverse : Bool) (key : SortKey) (i : Nat) : Prop :=
  ∃ name dataType, key = ⟨.column ⟨i, name, dataType, 0⟩, reverse⟩

/-- The rows that WHERE is TRUE of, in the order that the path promises. -/
structure Chosen (ops : FloatOps) (condition : Option BoundExpression) (rows : List (Int × List Value))
    (path : AccessPath) (chosen : List (Int × List Value)) : Prop where
  perm : chosen.Perm (rows.filter fun row => whereTrue ops condition row.2)
  sorted : ∃ positions, List.Forall₂ (SortKey.At path.reverse) path.outputOrder positions ∧
    chosen.Pairwise fun a b => compareRows a.2 b.2 (walkKeys positions path.reverse) ≠ .gt

/-- `_build_single_table_source`, of a path. -/
def sourceOf (table : TableSchema) (condition : Option BoundExpression) (path : CostedPath) : Operator :=
  (Operator.scan table path).filtered (residualFilterExpression (nonSargable condition) path.residual)

section Paths

variable {casefold : String → String} {table : TableSchema} {index : IndexSchema}
  {predicates : List (Object Predicate)} {path : AccessPath}

theorem indexOrderPath_ok {reverse : Bool}
    (h : indexOrderPath casefold index predicates table 0 reverse = .ok path) :
    path.kind = .indexScan ∧ path.index = some index ∧ path.seekTerms = [] ∧ path.residual = predicates ∧
      path.reverse = reverse ∧ index.columns.mapM (outputKey casefold table 0 reverse) = .ok path.outputOrder := by
  obtain ⟨outputOrder, horder, h⟩ := bind_eq_ok h
  cases h
  exact ⟨rfl, rfl, rfl, rfl, rfl, horder⟩

/-- The order that a walk over an index promises, and the positions of its columns. -/
theorem outputOrder_at {reverse : Bool} {positions : List Nat} {keys : List SortKey}
    (hkeys : index.columns.mapM (outputKey casefold table 0 reverse) = .ok keys)
    (hpositions : indexColumns casefold table index = .ok positions) :
    List.Forall₂ (SortKey.At reverse) keys positions := by
  replace hkeys := mapM_ok hkeys
  replace hpositions := mapM_ok hpositions
  generalize index.columns = columns at hkeys hpositions
  induction hkeys generalizing positions with
  | nil =>
      cases hpositions
      exact .nil
  | @cons name key columns keys hkey _ ih =>
      cases hpositions with
      | @cons _ i _ positions hi hpositions =>
          refine .cons ?_ (ih hpositions)
          obtain ⟨j, hj, hkey⟩ := bind_eq_ok hkey
          cases hi.symm.trans hj
          split at hkey
          · cases hkey
            exact ⟨name, _, rfl⟩
          · cases hkey

/-- What is sought comes first of what is sought, equalities before bounds. -/
theorem seekTermsOf_split (predicates : List (Object Predicate)) (columns : List String) :
    seekTermsOf (onColumn predicates) columns =
      equalities (seekTermsOf (onColumn predicates) columns) ++
        inequalities (seekTermsOf (onColumn predicates) columns) := by
  rw [equalities_seekTermsOf, inequalities_seekTermsOf, seekTermsOf_eq, List.append_assoc]
  congr 1
  cases columns.dropWhile (passes predicates) with
  | nil => rfl
  | cons c rest =>
      obtain ⟨heqs, hranges⟩ := stopTerms_cons predicates c rest
      rw [heqs, hranges]
      rfl

end Paths

section Source

variable {ops : FloatOps} {casefold : String → String} {catalog : Catalog} {header : PageContent}
  {content : Content} {s : PageStore} {sameRow : List Value → List Value → Bool} {e : String × TableSchema}
  {condition : Option BoundExpression} {path : CostedPath}

/-- What a path seeks and what the filter checks are the conjuncts. -/
theorem whereTrue_of_partition {predicates : List (Object Predicate)} {row : List Value}
    (hpredicates : predicates = classifiedPredicates (extractConjuncts condition) 0)
    {terms residual : List (Object Predicate)} (hperm : (terms ++ residual).Perm predicates) :
    whereTrue ops condition row = (terms.all (fun p => isTrue ops row p.val.source) &&
      (nonSargable condition ++ residual.map fun p => p.val.source).all (isTrue ops row)) := by
  have hsources := sources_perm (extractConjuncts condition) 0
  have hall : ∀ {es es' : List BoundExpression}, es.Perm es' → es.all (isTrue ops row) = es'.all (isTrue ops row) := by
    intro es es' h
    rw [Bool.eq_iff_iff, List.all_eq_true, List.all_eq_true]
    exact ⟨fun hall c hc => hall c (h.mem_iff.mpr hc), fun hall c hc => hall c (h.mem_iff.mp hc)⟩
  have hmap := hall (hperm.map fun p => p.val.source)
  rw [List.map_append, List.all_append, List.all_map, hpredicates] at hmap
  rw [whereTrue_conjuncts, ← hall hsources, List.all_append, ← hmap, List.all_append, nonSargable,
    Bool.and_left_comm]
  rfl

theorem filter_walk_perm {α : Type} (path : AccessPath) {xs ys : List α} (h : xs.Perm ys) (p q : α → Bool) :
    ((path.walk (xs.filter p)).filter q).Perm (ys.filter fun x => p x && q x) := by
  calc ((path.walk (xs.filter p)).filter q).Perm ((xs.filter p).filter q) := (path.walk_perm _).filter q
    _ = xs.filter fun x => q x && p x := List.filter_filter
    _ = xs.filter fun x => p x && q x := List.filter_congr fun x _ => Bool.and_comm ..
    (xs.filter fun x => p x && q x).Perm (ys.filter fun x => p x && q x) := h.filter _

/-- A scan of an index and its filter: what the index seeks is TRUE, and the filter checks
the rest. -/
theorem Stores.indexSource (hs : Stores header catalog.slots content s) (h : InStep casefold catalog content)
    (he : e ∈ catalog.tables) {index : IndexSchema} (hindex : index ∈ catalog.indexesFor casefold e.2.name)
    {predicates : List (Object Predicate)} (hpredicates : predicates = classifiedPredicates (extractConjuncts condition) 0)
    (hkind : path.kind = .indexScan) (hpath : path.index = some index) (hcontract : path.Contract predicates)
    (hsplit : path.seekTerms = equalities path.seekTerms ++ inequalities path.seekTerms)
    (hof : ∀ c ∈ extractConjuncts condition, c.Of casefold e.2)
    (hevaluable : Evaluable ops condition ((content.rows e.2.rootPage).map Prod.snd))
    (htight : ∀ ranges, List.Forall₂ (IsTerm ops []) (inequalities path.seekTerms) ranges →
      ∀ p ∈ inequalities path.seekTerms, ∀ i, e.2.columnIndex casefold p.val.column = .ok i →
        ∀ row ∈ (content.rows e.2.rootPage).map Prod.snd, ¬ SlipsThrough ops ranges (row.getD i .null)) :
    ∃ positions ordered, indexColumns casefold e.2 index = .ok positions ∧
      Indexed positions (content.rows e.2.rootPage) (content.keys index.rootPage) ∧
      InKeyOrder positions (content.rows e.2.rootPage) (content.keys index.rootPage) ordered ∧
      ∃ p q : Int × List Value → Bool, (sourceOf e.2 condition path).pulls ops s sameRow [] =
          ((path.walk (ordered.filter p)).filter q).map (fun row => .ok row.2) ∧
        (∀ row ∈ content.rows e.2.rootPage, (p row && q row) = whereTrue ops condition row.2) ∧
        (path.seekTerms = [] → ∀ row ∈ content.rows e.2.rootPage, p row = true) := by
  have hcoherent := h.coherent e he
  obtain ⟨positions, hpositions, hindexed, -⟩ := hcoherent.indexed index hindex
  obtain ⟨ordered, hordered⟩ := hindexed.inKeyOrder
  have hmem : ∀ p ∈ path.seekTerms, p ∈ predicates :=
    fun p hp => hcontract.partition.mem_iff.mp (List.mem_append_left _ hp)
  have hsought : ∀ p ∈ path.seekTerms, Sought ops casefold e.2 p := by
    intro p hp
    obtain ⟨c, hc, hclass⟩ := classified_of_mem (hpredicates ▸ hmem p hp)
    exact sought_of_classifies hclass (hof c hc)
  obtain ⟨eqs, ranges, hterms, hshape, hranges, hcolumn, hpasses⟩ := hcontract.terms hpath hsplit hpositions hsought
    fun p hp => hevaluable.sought p (hpredicates ▸ hmem p hp)
  have hslips : Tight ops eqs ranges positions (content.rows e.2.rootPage) := by
    intro hne row hrow
    obtain ⟨t, ht⟩ := List.exists_mem_of_ne_nil _ hne
    obtain ⟨p, hp, -⟩ := exists_left hranges ht
    exact htight ranges hranges p hp _ (hcolumn p hp) row.2 (List.mem_map_of_mem hrow)
  refine ⟨positions, ordered, hpositions, hindexed, hordered, rowPasses ops eqs ranges positions,
    fun row => (nonSargable condition ++ path.residual.map fun p => p.val.source).all (isTrue ops row.2), ?_, ?_, ?_⟩
  · apply filtered_pulls
    · rw [Operator.scan, hkind]
      exact hs.indexScan (table_mem_slots he) (index_mem_slots index hindex) hindexed hordered hpath hterms hshape hslips
    · intro row hrow c hc
      have hrow := hordered.perm.mem_iff.mp (List.mem_of_mem_filter ((path.walk_perm _).mem_iff.mp hrow))
      apply hevaluable.conjuncts row.2 (List.mem_map_of_mem hrow)
      rw [← (sources_perm (extractConjuncts condition) 0).mem_iff, List.mem_append]
      rcases List.mem_append.mp hc with hc | hc
      · exact .inl hc
      · obtain ⟨p, hp, rfl⟩ := List.mem_map.mp hc
        have hp := hcontract.partition.mem_iff.mp (List.mem_append_right _ hp)
        exact .inr (List.mem_map.mpr ⟨p, hpredicates ▸ hp, rfl⟩)
  · intro row hrow
    rw [hpasses row (hcoherent.widths row hrow), whereTrue_of_partition hpredicates hcontract.partition]
  · intro hnone row hrow
    rw [hpasses row (hcoherent.widths row hrow), hnone]
    rfl

/-- A scan of any access path and its filter return the rows that WHERE is TRUE of. -/
theorem Stores.source (sameRow : List Value → List Value → Bool) (hs : Stores header catalog.slots content s)
    (h : InStep casefold catalog content) (he : e ∈ catalog.tables)
    (hpath : Enumerated casefold e.2 (catalog.indexesFor casefold e.2.name)
      (classifiedPredicates (extractConjuncts condition) 0) 0 path.toAccessPath)
    (hof : ∀ c ∈ extractConjuncts condition, c.Of casefold e.2)
    (hevaluable : Evaluable ops condition ((content.rows e.2.rootPage).map Prod.snd))
    (hserves : ∀ index ∈ catalog.indexesFor casefold e.2.name, index.Serves ops casefold e.2
      ((content.rows e.2.rootPage).map Prod.snd) (classifiedPredicates (extractConjuncts condition) 0)) :
    ∃ chosen, (sourceOf e.2 condition path).pulls ops s sameRow [] = chosen.map (fun row => .ok row.2) ∧
      Chosen ops condition (content.rows e.2.rootPage) path.toAccessPath chosen := by
  generalize hpredicates : classifiedPredicates (extractConjuncts condition) 0 = predicates at hpath hserves
  have hids : (predicates.map Object.id).Nodup := hpredicates ▸ classifiedPredicates_nodup _ _
  have hnoOrder : ∀ {xs : List (Int × List Value)}, path.outputOrder = [] → ∃ positions,
      List.Forall₂ (SortKey.At path.reverse) path.outputOrder positions ∧
        xs.Pairwise fun a b => compareRows a.2 b.2 (walkKeys positions path.reverse) ≠ .gt := by
    intro xs hnone
    rw [hnone]
    exact ⟨[], .nil, List.pairwise_of_forall fun a b => by simp [walkKeys, compareRows]⟩
  generalize hap : path.toAccessPath = ap at hpath
  cases hpath with
  | seqScan =>
      have hkind : path.kind = .seqScan := congrArg AccessPath.kind hap
      have hresidual : path.residual = predicates := congrArg AccessPath.residual hap
      have hcoherent := h.coherent e he
      refine ⟨(content.rows e.2.rootPage).filter fun row => (nonSargable condition ++
        path.residual.map fun p => p.val.source).all (isTrue ops row.2), ?_, ?_, ?_⟩
      · apply filtered_pulls
        · rw [Operator.scan, hkind]
          exact hs.seqScan (table_mem_slots he)
        · intro row hrow c hc
          apply hevaluable.conjuncts row.2 (List.mem_map_of_mem hrow)
          rwa [hresidual, ← hpredicates, nonSargable, (sources_perm (extractConjuncts condition) 0).mem_iff] at hc
      · apply List.Perm.of_eq
        apply List.filter_congr
        intro row _
        have hperm : ([] ++ path.residual).Perm predicates := by rw [hresidual]; exact List.Perm.refl _
        rw [whereTrue_of_partition hpredicates.symm hperm]
        rfl
      · rw [← hap]
        exact hnoOrder (congrArg AccessPath.outputOrder hap)
  | seek index hindex hterms =>
      have hseek : path.seekTerms = seekTermsOf (onColumn predicates) index.columns := congrArg AccessPath.seekTerms hap
      have hpath : path.index = some index := congrArg AccessPath.index hap
      have hcontract : path.Contract predicates :=
        (contract_seek_iff hids hpath hseek (hseek ▸ congrArg AccessPath.residual hap)).mpr (hserves index hindex).seekable
      obtain ⟨positions, ordered, -, -, hordered, p, q, hpulls, hpq, -⟩ := hs.indexSource h he hindex hpredicates.symm
        (congrArg AccessPath.kind hap) hpath hcontract (hseek ▸ seekTermsOf_split predicates index.columns) hof hevaluable
        (hseek ▸ (hserves index hindex).tight)
      refine ⟨_, hpulls, ?_, ?_⟩
      · rw [← List.filter_congr hpq]
        exact filter_walk_perm path.toAccessPath hordered.perm p q
      · rw [← hap]
        exact hnoOrder (congrArg AccessPath.outputOrder hap)
  | walk index hindex hterms reverse _ hwalk =>
      obtain ⟨hkind, hpath, hnone, hresidual, hreverse, horder⟩ := indexOrderPath_ok hwalk
      rw [← hap] at hkind hpath hnone hresidual hreverse horder
      have hnil : inequalities path.seekTerms = [] := by rw [hnone]; rfl
      obtain ⟨positions, ordered, hpositions, hindexed, hordered, p, q, hpulls, hpq, hall⟩ := hs.indexSource h he hindex
        hpredicates.symm hkind hpath (contract_of_no_seek hnone hresidual) (by rw [hnone]; rfl) hof hevaluable
        (fun ranges _ p hp => by rw [hnil] at hp; cases hp)
      have hkeep : ordered.filter p = ordered := by
        rw [List.filter_eq_self]
        exact fun row hrow => hall hnone row (hordered.perm.mem_iff.mp hrow)
      refine ⟨_, hpulls, ?_, positions, ?_, ?_⟩
      · rw [← List.filter_congr hpq]
        exact filter_walk_perm path.toAccessPath hordered.perm p q
      · rw [← hap, hreverse]
        exact outputOrder_at horder hpositions
      · rw [hkeep, ← hap]
        exact hordered.walk_sorted hindexed hnone q

end Source

end QuillDb
