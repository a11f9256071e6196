/-
  Exec/Coherent.lean --- INSERT, DELETE and UPDATE on a table and its indexes.

  Source: `Insert.next`, `Delete.next`, `Update.next` and `Update._apply` of
  `quilldb/exec/operators.py`.

  A statement is described by the rows it leaves: an INSERT adds one behind the others,
  a DELETE drops the rows that its WHERE is TRUE of, an UPDATE assigns them in place.  The
  indexes of the table stay in step, and the other trees stay as they are.  A value that
  goes into an index must not be a NaN, which has no place in the order of the keys.
-/
import QuillDb.Exec.DeclaredTypes
import QuillDb.Exec.EvaluateRaises
import QuillDb.Exec.Indexed

set_option autoImplicit false

namespace QuillDb

open Prog PageStore Fallible

/-! ## A table and its indexes -/

section Coherent

variable (casefold : String → String)

/-- The indexes of a table are in step with its rows. -/
structure Coherent (table : TableSchema) (indexes : List IndexSchema) (rows : List (Int × List Value))
    (keys : Nat → List (List Value)) : Prop where
  widths : ∀ row ∈ rows, row.2.length = table.columns.length
  indexed : ∀ index ∈ indexes, ∃ positions, indexColumns casefold table index = .ok positions ∧
    Indexed positions rows (keys index.rootPage) ∧
      (index.unique = true → ¬ HasDuplicate (keyedBy positions rows))

/-- The trees of a table and its indexes are there. -/
structure Planted (slots : List (TreeKind × Nat)) (table : TableSchema) (indexes : List IndexSchema) : Prop where
  tableAt : (.table, table.rootPage) ∈ slots
  indexAt : ∀ index ∈ indexes, (.index, index.rootPage) ∈ slots
  apart : (indexes.map IndexSchema.rootPage).Nodup

/-- The table holds these rows, its indexes are in step with them, and the other trees
say what they said before. -/
def HasRows (header : PageContent) (slots : List (TreeKind × Nat)) (table : TableSchema)
    (indexes : List IndexSchema) (before : Content) (rows : List (Int × List Value)) (s : PageStore) : Prop :=
  ∃ keys, Stores header slots ⟨Function.update before.rows table.rootPage rows, keys⟩ s ∧
    Coherent casefold table indexes rows keys ∧
      ∀ root ∉ indexes.map IndexSchema.rootPage, keys root = before.keys root

/-- No NaN goes into an index. -/
def NanFree (table : TableSchema) (indexes : List IndexSchema) (values : List Value) : Prop :=
  ∀ index ∈ indexes, ∀ key, entryKey casefold table values index = .ok key → ∀ v ∈ key, ¬ v.isNan

variable {casefold} {header : PageContent} {slots : List (TreeKind × Nat)} {table : TableSchema}
  {indexes : List IndexSchema} {before : Content} {rows : List (Int × List Value)} {s : PageStore}
  {keys : Nat → List (List Value)} {index : IndexSchema} {positions : List Nat} {values : List Value}

theorem HasRows.start {content : Content} (hs : Stores header slots content s)
    (hc : Coherent casefold table indexes (content.rows table.rootPage) content.keys) :
    HasRows casefold header slots table indexes content (content.rows table.rootPage) s := by
  refine ⟨content.keys, ?_, hc, fun _ _ => rfl⟩
  rwa [Function.update_eq_self]

theorem HasRows.ascending (h : HasRows casefold header slots table indexes before rows s)
    (hp : Planted slots table indexes) : rows.Pairwise fun a b => a.1 < b.1 := by
  obtain ⟨keys, hs, -⟩ := h
  simpa using hs.ascending hp.tableAt

/-! ### Keys -/

theorem lt_of_indexColumns (h : indexColumns casefold table index = .ok positions) :
    ∀ i ∈ positions, i < table.columns.length := by
  intro i hi
  obtain ⟨name, -, hname⟩ := exists_left (mapM_ok h) hi
  exact TableSchema.columnIndex_lt hname

/-- The key of a row with a value for each column. -/
theorem entryKey_eq (h : indexColumns casefold table index = .ok positions)
    (hlen : values.length = table.columns.length) :
    entryKey casefold table values index = .ok (keyAt positions values) := by
  rw [entryKey, h]
  apply pickColumns_eq
  intro i hi
  rw [hlen]
  exact lt_of_indexColumns h i hi

theorem NanFree.comparable (h : NanFree casefold table indexes values) (hindex : index ∈ indexes)
    (hpositions : indexColumns casefold table index = .ok positions)
    (hlen : values.length = table.columns.length) : Comparable positions.length (keyAt positions values) :=
  ⟨length_keyAt _ _, h index hindex _ (entryKey_eq hpositions hlen)⟩

/-- A rowid is no NaN. -/
theorem comparable_indexKey {row : Int × List Value} (h : Comparable positions.length (keyAt positions row.2)) :
    Comparable (positions.length + 1) (indexKey positions row) := by
  refine ⟨by simp [indexKey], fun v hv => ?_⟩
  rcases List.mem_append.mp hv with hv | hv
  · exact h.2 v hv
  · rw [List.mem_singleton.mp hv]
    simp [Value.isNan, Value.number]

/-- Rows that ascend, one of them first. -/
theorem perm_cons_filter {row : Int × List Value} (hasc : rows.Pairwise fun a b => a.1 < b.1) (hrow : row ∈ rows) :
    rows.Perm (row :: rows.filter fun other => other.1 ≠ row.1) := by
  obtain ⟨xs, ys, rfl⟩ := List.append_of_mem hrow
  rw [filter_ne_of_ascending hasc rfl]
  exact List.perm_middle

/-! ## INSERT -/

/-- A UNIQUE index holds a key that clashes with the new one. -/
def Rejected (casefold : String → String) (table : TableSchema) (indexes : List IndexSchema)
    (rows : List (Int × List Value)) (values : List Value) : Prop :=
  ∃ index ∈ indexes, index.unique = true ∧ ∃ positions, indexColumns casefold table index = .ok positions ∧
    ∃ row ∈ rows, Clash (keyAt positions values) (keyAt positions row.2)

/-- The indexes with their keys, as `Insert.next` lists them. -/
theorem exists_keyed (hc : Coherent casefold table indexes rows keys)
    (hlen : values.length = table.columns.length) :
    ∃ keyed, indexes.mapM (fun index => do
        let key ← entryKey casefold table values index
        return (index, key)) = .ok keyed ∧ keyed.map Prod.fst = indexes ∧
      ∀ p ∈ keyed, ∃ positions, indexColumns casefold table p.1 = .ok positions ∧ p.2 = keyAt positions values := by
  have hkeys : ∀ index ∈ indexes, ∃ p : IndexSchema × List Value, p.1 = index ∧
      ∃ positions, indexColumns casefold table index = .ok positions ∧ p.2 = keyAt positions values := by
    intro index hindex
    obtain ⟨positions, hpositions, -⟩ := hc.indexed index hindex
    exact ⟨(index, keyAt positions values), rfl, positions, hpositions, rfl⟩
  obtain ⟨keyed, hkeyed⟩ := exists_forall₂_iff.mpr hkeys
  refine ⟨keyed, mapM_eq_ok_iff.mpr (hkeyed.imp fun index p hp => ?_), ?_, fun p hp => ?_⟩
  · obtain ⟨rfl, positions, hpositions, hvalues⟩ := hp
    refine bind_eq_ok_iff.mpr ⟨p.2, ?_, rfl⟩
    rw [hvalues]
    exact entryKey_eq hpositions hlen
  · clear hkeys hc
    induction hkeyed with
    | nil => rfl
    | cons hp _ ih => rw [List.map_cons, ih, hp.1]
  · obtain ⟨index, -, rfl, positions, hpositions, hvalues⟩ := exists_left hkeyed hp
    exact ⟨positions, hpositions, hvalues⟩

/-- The probe of a UNIQUE index. -/
theorem probe_post {content : Content} (hs : Stores header slots content s) (hp : Planted slots table indexes)
    (hindex : index ∈ indexes) (hindexed : Indexed positions rows (content.keys index.rootPage)) {probe : List Value}
    (hprobe : Comparable positions.length probe) (rejects : Option Int → Bool) :
    Post (do
      let conflict ← IndexBTree.findConflict index.rootPage probe
      raiseIf (rejects conflict = true) (DbError.uniqueViolation index.name probe)) s
      (fun _ s' => s' = s ∧ rejects (firstConflict (content.keys index.rootPage) probe) = false)
      fun e s' => s' = s ∧ rejects (firstConflict (content.keys index.rootPage) probe) = true ∧
        e = .uniqueViolation index.name probe := by
  have hfind := hs.findConflict (hp.indexAt index hindex) hindexed.sorted (hprobe.1.le.trans (Nat.le_succ _))
  rw [post_bind]
  apply Post.of_eq hfind
  rw [post_raiseIf]
  exact ⟨fun h => ⟨rfl, h, rfl⟩, fun h => ⟨rfl, Bool.eq_false_of_not_eq_true h⟩⟩

/-- The probes of an INSERT. -/
theorem probes_post {content : Content} (hs : Stores header slots content s) (hp : Planted slots table indexes)
    (hc : Coherent casefold table indexes rows content.keys) (hlen : values.length = table.columns.length)
    (hnan : NanFree casefold table indexes values) {keyed : List (IndexSchema × List Value)}
    (hindexes : keyed.map Prod.fst = indexes)
    (hkeyed : ∀ p ∈ keyed, ∃ positions,
      indexColumns casefold table p.1 = .ok positions ∧ p.2 = keyAt positions values) :
    Post (keyed.forM fun p => do
        if p.1.unique then
          let conflict ← IndexBTree.findConflict p.1.rootPage p.2
          raiseIf conflict.isSome (.uniqueViolation p.1.name p.2)) s
      (fun _ s' => s' = s ∧ ¬ Rejected casefold table indexes rows values)
      fun e s' => s' = s ∧ Rejected casefold table indexes rows values ∧
        ∃ index ∈ indexes, ∃ key, e = .uniqueViolation index.name key := by
  have hindex : ∀ p ∈ keyed, p.1 ∈ indexes := fun p hp => hindexes ▸ List.mem_map_of_mem hp
  refine (Post.checks (fun p => p.1.unique = true → firstConflict (content.keys p.1.rootPage) p.2 = none)
    (fun p e => p.1.unique = true ∧ (firstConflict (content.keys p.1.rootPage) p.2).isSome = true ∧
      e = .uniqueViolation p.1.name p.2) fun p hpair => ?_).mono ?_ ?_
  · obtain ⟨positions, hpositions, hvalues⟩ := hkeyed p hpair
    obtain ⟨positions', hpositions', hindexed, -⟩ := hc.indexed p.1 (hindex p hpair)
    obtain rfl := Except.ok.inj (hpositions.symm.trans hpositions')
    have hprobe := hvalues ▸ hnan.comparable (hindex p hpair) hpositions hlen
    split
    · rename_i hunique
      apply (probe_post hs hp (hindex p hpair) hindexed hprobe Option.isSome).mono
      · rintro _ s' ⟨hs', hnone⟩
        exact ⟨hs', fun _ => by simpa using hnone⟩
      · rintro e s' ⟨hs', hsome, he⟩
        exact ⟨hs', hunique, hsome, he⟩
    · rename_i hunique
      exact ⟨rfl, fun h => absurd h hunique⟩
  · rintro _ s' ⟨hs', hnone⟩
    refine ⟨hs', ?_⟩
    rintro ⟨index, hmem, hunique, positions, hpositions, row, hrow, hclash⟩
    obtain ⟨p, hpair, rfl⟩ := List.mem_map.mp (hindexes ▸ hmem)
    obtain ⟨positions', hpositions', hindexed, -⟩ := hc.indexed p.1 hmem
    obtain rfl := Except.ok.inj (hpositions.symm.trans hpositions')
    obtain ⟨positions', hpositions', hvalues⟩ := hkeyed p hpair
    obtain rfl := Except.ok.inj (hpositions.symm.trans hpositions')
    have hprobe := hnan.comparable hmem hpositions hlen
    exact hindexed.not_clash_of_none hprobe (hvalues ▸ hnone p hpair hunique) row hrow hclash
  · rintro e s' ⟨hs', p, hpair, hunique, hsome, he⟩
    obtain ⟨positions, hpositions, hvalues⟩ := hkeyed p hpair
    obtain ⟨positions', hpositions', hindexed, -⟩ := hc.indexed p.1 (hindex p hpair)
    obtain rfl := Except.ok.inj (hpositions.symm.trans hpositions')
    obtain ⟨rowid, hfound⟩ := Option.isSome_iff_exists.mp hsome
    rw [hvalues] at hfound
    obtain ⟨row, hrow, -, hclash⟩ :=
      hindexed.clash_of_conflict (hnan.comparable (hindex p hpair) hpositions hlen) hfound
    exact ⟨hs', ⟨p.1, hindex p hpair, hunique, positions, hpositions, row, hrow, hclash⟩, p.1, hindex p hpair, _, he⟩

/-- A table and its indexes with one more row. -/
theorem Coherent.concat {row : Int × List Value} {keys' : Nat → List (List Value)}
    (hc : Coherent casefold table indexes rows keys) (hlen : row.2.length = table.columns.length)
    (hnan : NanFree casefold table indexes row.2)
    (hgains : ∀ index ∈ indexes, ∀ positions, indexColumns casefold table index = .ok positions →
      Gains (indexKey positions row) (keys index.rootPage) (keys' index.rootPage))
    (hrejected : ¬ Rejected casefold table indexes rows row.2) :
    Coherent casefold table indexes (rows ++ [row]) keys' := by
  constructor
  · intro other hother
    rcases List.mem_append.mp hother with hother | hother
    · exact hc.widths other hother
    · rw [List.mem_singleton.mp hother]
      exact hlen
  · intro index hindex
    obtain ⟨positions, hpositions, hindexed, hunique⟩ := hc.indexed index hindex
    have hcomparable := hnan.comparable hindex hpositions hlen
    have hkeys := hindexed.gain (comparable_indexKey hcomparable) (hgains index hindex positions hpositions)
      (List.perm_append_singleton row rows)
    refine ⟨positions, hpositions, hkeys, fun hu => ?_⟩
    apply not_hasDuplicate_insert
    · rw [List.append_nil]
      exact hunique hu
    · exact fun other hother => hkeys.comparable_keyAt hother
    · intro other hother _ hclash
      rw [List.append_nil] at hother
      exact hrejected ⟨index, hindex, hu, positions, hpositions, other, hother, hclash⟩

/-- `insertRow` puts the row behind the others, or rejects it and changes nothing. -/
theorem insertRow_spec {statement : BoundInsert} (hp : Planted slots statement.table indexes)
    (h : HasRows casefold header slots statement.table indexes before rows s)
    (hlen : statement.values.length = statement.table.columns.length)
    (hnan : NanFree casefold statement.table indexes statement.values) :
    Post (insertRow casefold indexes statement) s
      (fun _ s' => ¬ Rejected casefold statement.table indexes rows statement.values ∧
        HasRows casefold header slots statement.table indexes before
          (rows ++ [(nextRowidOf rows, statement.values)]) s')
      fun e s' => (Rejected casefold statement.table indexes rows statement.values ∧ s' = s ∧
          ∃ index ∈ indexes, ∃ key, e = .uniqueViolation index.name key) ∨
        ¬ Rejected casefold statement.table indexes rows statement.values ∧ e.Ordinary := by
  have hasc := h.ascending hp
  obtain ⟨keys, hs, hc, hframe⟩ := h
  obtain ⟨keyed, hmapM, hindexes, hkeyed⟩ := exists_keyed hc hlen
  rw [insertRow, hmapM, post_bind, post_lift_ok]
  apply (probes_post hs hp hc hlen hnan hindexes hkeyed).bind
  · rintro _ s' ⟨hs', hrejected⟩
    subst hs'
    have hnextRowid := hs.nextRowid hp.tableAt
    simp only [Function.update_self] at hnextRowid
    rw [post_bind]
    apply Post.of_eq hnextRowid
    rw [post_bind, post_lift]
    refine ⟨fun payload hpayload => ?_, fun e he => .inr ⟨hrejected, encodeRecord_fails _ e he⟩⟩
    have happend := hs.append hp.tableAt hpayload
    simp only [Function.update_self] at happend
    apply happend.bind ?_ fun e _ he => .inr ⟨hrejected, he⟩
    intro _ s₁ hs₁
    have hroots : keyed.map (fun p => p.1.rootPage) = indexes.map IndexSchema.rootPage := by
      rw [← hindexes, List.map_map]
      rfl
    have hapart : (keyed.map fun p => p.1.rootPage).Nodup := hroots ▸ hp.apart
    have hloop := hs₁.forM_keys (f := fun p : IndexSchema × List Value =>
        IndexBTree.insert p.1.rootPage p.2 (nextRowidOf rows)) (t := fun p => p.1.rootPage) (E := DbError.Ordinary)
      (R := fun p => Gains (p.2 ++ [.int (nextRowidOf rows)]))
      (fun p hpair content s hs => hs.insertKey (hp.indexAt p.1 (hindexes ▸ List.mem_map_of_mem hpair)) p.2 _)
      hapart
    apply hloop.mono ?_ fun e _ he => .inr ⟨hrejected, he⟩
    rintro _ s₂ ⟨keys₂, hs₂, hgains, hsame⟩
    simp only [Content.setRows, Function.update_idem] at hs₂
    refine ⟨hrejected, keys₂, hs₂, ?_, fun root hroot => ?_⟩
    · refine hc.concat hlen hnan (fun index hindex positions hpositions => ?_) hrejected
      obtain ⟨p, hpair, rfl⟩ := List.mem_map.mp (hindexes ▸ hindex)
      obtain ⟨positions', hpositions', hvalues⟩ := hkeyed p hpair
      obtain rfl := Except.ok.inj (hpositions.symm.trans hpositions')
      rw [indexKey_eq, ← hvalues]
      exact hgains p hpair
    · rw [hsame root (hroots ▸ hroot)]
      exact hframe root hroot
  · rintro e s' ⟨hs', hrejected, he⟩
    exact .inl ⟨hrejected, hs', he⟩

/-! ## Scans -/

/-- The WHERE clause is TRUE of the row. -/
def passesWhere (ops : FloatOps) (condition : Option BoundExpression) (row : Int × List Value) : Bool :=
  match conditionPasses ops condition row.2 with
  | .ok pass => pass
  | .error _ => false

theorem passesWhere_of_ok {ops : FloatOps} {condition : Option BoundExpression} {row : Int × List Value} {pass : Bool}
    (h : conditionPasses ops condition row.2 = .ok pass) : passesWhere ops condition row = pass := by
  rw [passesWhere, h]

theorem conditionPasses_fails (ops : FloatOps) (condition : Option BoundExpression) (row : List Value) :
    Fails DbError.Ordinary (conditionPasses ops condition row) := by
  cases condition with
  | none => exact Fails.ok _
  | some condition => exact (evaluate_fails row condition).map _

/-- `scanMatchingRows` finds the rows that WHERE is TRUE of, in their order, and raises
where it cannot tell. -/
theorem scanMatchingRows_spec (ops : FloatOps) {content : Content} (condition : Option BoundExpression)
    (hs : Stores header slots content s) (hslot : (.table, table.rootPage) ∈ slots) :
    Post (scanMatchingRows ops table condition) s
      (fun found s' => s' = s ∧ (∀ row ∈ content.rows table.rootPage, ∃ pass,
          conditionPasses ops condition row.2 = .ok pass) ∧
        found = (content.rows table.rootPage).filter (passesWhere ops condition))
      fun e s' => s' = s ∧ ∃ row ∈ content.rows table.rootPage, conditionPasses ops condition row.2 = .error e := by
  let see (row : Int × List Value) : Except DbError (List (Int × List Value)) := do
    let pass ← conditionPasses ops condition row.2
    return if pass then [row] else []
  rw [scanMatchingRows]
  apply (hs.each see hslot ?_).bind
  · rintro parts s' ⟨hs', hparts⟩
    rw [post_pure]
    refine ⟨hs', fun row hrow => ?_, ?_⟩
    · obtain ⟨part, -, hpart⟩ := exists_right hparts hrow
      obtain ⟨pass, hpass, -⟩ := bind_eq_ok hpart
      exact ⟨pass, hpass⟩
    · clear hs
      generalize content.rows table.rootPage = rows at hparts
      induction hparts with
      | nil => rfl
      | @cons row part rows parts hpart _ ih =>
          obtain ⟨pass, hpass, hpair⟩ := bind_eq_ok hpart
          obtain rfl := Except.ok.inj hpair
          rw [List.flatten_cons, ih, List.filter_cons, passesWhere_of_ok hpass]
          cases pass <;> simp
  · rintro e s' ⟨hs', row, hrow, he⟩
    refine ⟨hs', row, hrow, ?_⟩
    cases hpass : conditionPasses ops condition row.2 with
    | error e' =>
        simp only [see, hpass] at he
        exact congrArg _ (Except.error.inj he)
    | ok pass =>
        simp only [see, hpass] at he
        cases he
  · intro row payload hdecode
    rw [hdecode, bind_of_ok (lift_apply _ _)]
    cases hpass : conditionPasses ops condition row.2 with
    | error e => simp [see, hpass, bind_apply]
    | ok pass => simp [see, hpass, bind_apply]

/-! ## DELETE -/

/-- `Delete.next` of one row. -/
def deleteRow (casefold : String → String) (indexes : List IndexSchema) (table : TableSchema)
    (row : Int × List Value) : StoreM PUnit := do
  indexes.forM fun index => do
    let key ← lift (entryKey casefold table row.2 index)
    let _ ← IndexBTree.delete index.rootPage key row.1
  let _ ← BTree.delete table.rootPage row.1

theorem deleteRow_post {row : Int × List Value} (hp : Planted slots table indexes)
    (h : HasRows casefold header slots table indexes before rows s) (hrow : row ∈ rows) :
    Post (deleteRow casefold indexes table row) s (fun _ s' =>
      HasRows casefold header slots table indexes before (rows.filter fun other => other.1 ≠ row.1) s')
      fun e _ => e.Ordinary := by
  have hasc := h.ascending hp
  obtain ⟨keys, hs, hc, hframe⟩ := h
  rw [deleteRow, post_bind]
  refine (hs.forM_keys (t := IndexSchema.rootPage) (E := DbError.Ordinary) (R := fun index old new => ∀ positions,
    indexColumns casefold table index = .ok positions → Loses (indexKey positions row) old new)
    (fun index hindex content s hs => ?_) hp.apart).mono ?_ fun _ _ he => he
  rotate_left
  · rintro _ s₁ ⟨keys₁, hs₁, hloses, hsame⟩
    rw [post_bind]
    apply (hs₁.delete hp.tableAt row.1).mono ?_ fun _ _ he => he
    intro _ s₂ hs₂
    simp only [Content.setRows, Function.update_self, Function.update_idem] at hs₂
    refine ⟨keys₁, hs₂, ?_, fun root hroot => (hsame root hroot).trans (hframe root hroot)⟩
    have hsub : rows.filter (fun other => other.1 ≠ row.1) ⊆ rows := List.filter_subset_self rows
    constructor
    · exact fun other hother => hc.widths other (hsub hother)
    · intro index hindex
      obtain ⟨positions, hpositions, hindexed, hunique⟩ := hc.indexed index hindex
      have hkeys := hindexed.lose (hloses index hindex positions hpositions) (perm_cons_filter hasc hrow)
      exact ⟨positions, hpositions, hkeys, fun hu hdup => hunique hu (hdup.mono hsub)⟩
  · obtain ⟨positions, hpositions, -⟩ := hc.indexed index hindex
    rw [entryKey_eq hpositions (hc.widths row hrow), post_bind, post_lift_ok, post_bind]
    apply (hs.deleteKey (hp.indexAt index hindex) (keyAt positions row.2) row.1).mono ?_ fun _ _ he => he
    rintro _ s' ⟨keys', hloses, hs'⟩
    refine ⟨keys', fun positions' hpositions' => ?_, hs'⟩
    rw [← Except.ok.inj (hpositions.symm.trans hpositions')]
    exact hloses

/-- The rows of a list go, one after the other. -/
theorem deleteAll_post {found : List (Int × List Value)} (hp : Planted slots table indexes)
    (h : HasRows casefold header slots table indexes before rows s) (hfound : found ⊆ rows)
    (hnodup : (found.map Prod.fst).Nodup) :
    Post (found.forM (deleteRow casefold indexes table)) s (fun _ s' =>
      HasRows casefold header slots table indexes before
        (rows.filter fun row => row.1 ∉ found.map Prod.fst) s')
      fun e _ => e.Ordinary := by
  induction found generalizing rows s with
  | nil => simpa using h
  | cons row found ih =>
      obtain ⟨hfresh, hnodup⟩ := List.nodup_cons.mp hnodup
      apply (deleteRow_post hp h (hfound (List.mem_cons_self ..))).bind ?_ fun _ _ he => he
      intro _ s₁ h₁
      have hrest : found ⊆ rows.filter fun other => other.1 ≠ row.1 := by
        intro other hother
        refine List.mem_filter.mpr ⟨hfound (List.mem_cons_of_mem _ hother), ?_⟩
        have hne : other.1 ≠ row.1 := fun heq => hfresh (heq ▸ List.mem_map_of_mem hother)
        simpa using hne
      apply (ih h₁ hrest hnodup).mono ?_ fun _ _ he => he
      intro _ s₂ h₂
      rw [List.filter_filter] at h₂
      have hsame : rows.filter (fun other => decide (other.1 ∉ found.map Prod.fst) && decide (other.1 ≠ row.1)) =
          rows.filter fun other => other.1 ∉ (row :: found).map Prod.fst := by
        apply List.filter_congr
        intro other _
        rw [Bool.eq_iff_iff, Bool.and_eq_true, decide_eq_true_iff, decide_eq_true_iff, decide_eq_true_iff,
          List.map_cons, List.mem_cons, not_or, and_comm]
      rwa [hsame] at h₂

/-- `deleteRows` drops the rows that WHERE is TRUE of and counts them. -/
theorem deleteRows_spec {ops : FloatOps} {statement : BoundDelete} (hp : Planted slots statement.table indexes)
    (h : HasRows casefold header slots statement.table indexes before rows s) :
    Post (deleteRows casefold ops indexes statement) s
      (fun count s' => count = rows.countP (passesWhere ops statement.condition) ∧
        (∀ row ∈ rows, ∃ pass, conditionPasses ops statement.condition row.2 = .ok pass) ∧
        HasRows casefold header slots statement.table indexes before
          (rows.filter fun row => !passesWhere ops statement.condition row) s')
      fun e _ => e.Ordinary := by
  have hasc := h.ascending hp
  obtain ⟨keys, hs, -⟩ := id h
  have hscan := scanMatchingRows_spec ops statement.condition hs hp.tableAt
  simp only [Function.update_self] at hscan
  rw [deleteRows]
  apply hscan.bind
  rotate_left
  · rintro e s' ⟨_, row, _, he⟩
    exact conditionPasses_fails ops _ _ e he
  rintro found s' ⟨hs', htold, hfound⟩
  subst hs' hfound
  have hsub : rows.filter (passesWhere ops statement.condition) ⊆ rows := List.filter_subset_self rows
  have hnodup : ((rows.filter (passesWhere ops statement.condition)).map Prod.fst).Nodup :=
    List.pairwise_map.mpr ((hasc.filter _).imp fun hlt => hlt.ne)
  apply (deleteAll_post hp h hsub hnodup).bind ?_ fun _ _ he => he
  intro _ s₁ h₁
  refine ⟨List.countP_eq_length_filter.symm, htold, ?_⟩
  -- a rowid was found if and only if its row was
  have hleft : rows.filter (fun row => row.1 ∉ (rows.filter (passesWhere ops statement.condition)).map Prod.fst) =
      rows.filter fun row => !passesWhere ops statement.condition row := by
    apply List.filter_congr
    intro row hrow
    rw [Bool.eq_iff_iff, decide_eq_true_iff, Bool.not_eq_true', ← Bool.not_eq_true, not_iff_not]
    constructor
    · intro hmem
      obtain ⟨other, hother, heq⟩ := List.mem_map.mp hmem
      obtain ⟨hother, hpass⟩ := List.mem_filter.mp hother
      exact row_unique hasc hother hrow heq ▸ hpass
    · intro hpass
      exact List.mem_map_of_mem (List.mem_filter.mpr ⟨hrow, hpass⟩)
  rwa [hleft] at h₁

end Coherent

end QuillDb
