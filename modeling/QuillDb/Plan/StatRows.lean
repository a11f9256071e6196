/-
  Plan/StatRows.lean --- the rows that ANALYZE leaves in `quill_stat1`.

  Source: `_clear_rows`, `_write_row` and `_analyze_table` of `quilldb/plan/analyze.py`.

  The rows about a tree go, and one with new figures comes behind the others, so the first
  row about a tree that the planner finds is the one that was written last.
-/
import QuillDb.Plan.Measured
import QuillDb.Plan.Stat1

set_option autoImplicit false

namespace QuillDb

open Prog PageStore Fallible

/-! ## Rows about a tree -/

/-- The row is one of the table `tbl` and the index `idx`. -/
def About (tbl : String) (idx : Option String) (row : Int × List Value) : Prop :=
  ∃ stat, stat1RowOf row.2 = .ok stat ∧ stat.tbl = tbl ∧ stat.idx = idx

instance (tbl : String) (idx : Option String) (row : Int × List Value) : Decidable (About tbl idx row) :=
  match h : stat1RowOf row.2 with
  | .ok stat => decidable_of_iff (stat.tbl = tbl ∧ stat.idx = idx) (by simp [About, h])
  | .error _ => .isFalse (by simp [About, h])

/-- Every row is one that `_decode_row` reads. -/
def Legible (rows : List (Int × List Value)) : Prop := ∀ row ∈ rows, ∃ stat, stat1RowOf row.2 = .ok stat

/-- The figures of a tree. -/
structure StatFigure where
  idx : Option String
  stat : String
  pageCount : Nat
  height : Nat

/-- The row that `_write_row` writes. -/
def StatFigure.values (tbl : String) (figure : StatFigure) : List Value :=
  [.text tbl, (match figure.idx with | some idx => .text idx | none => .null), .text figure.stat,
    .int figure.pageCount, .int figure.height]

/-- The rows with new figures of a tree. -/
def restated (tbl : String) (rows : List (Int × List Value)) (figure : StatFigure) : List (Int × List Value) :=
  let kept := rows.filter fun row => ¬ About tbl figure.idx row
  kept ++ [(nextRowidOf kept, figure.values tbl)]

theorem About.unique {tbl tbl' : String} {idx idx' : Option String} {row : Int × List Value} (h : About tbl idx row)
    (h' : About tbl' idx' row) : tbl = tbl' ∧ idx = idx' := by
  obtain ⟨stat, hstat, rfl, rfl⟩ := h
  obtain ⟨stat', hstat', rfl, rfl⟩ := h'
  obtain rfl := Except.ok.inj (hstat.symm.trans hstat')
  exact ⟨rfl, rfl⟩

/-- `_decode_row` looks at two values. -/
theorem decodeStat1Row_eq {payload : Bytes} {row : List Value} (h : decodeRecord payload 0 = .ok row) :
    decodeStat1Row payload = (stat1RowOf row).map fun stat => (stat.tbl, stat.idx) := by
  rw [decodeStat1Row, h]
  simp only [bind, Except.bind, Except.map, stat1RowOf]
  split <;> simp_all

/-! ## Finding them -/

section Found

variable {tbl tbl' : String} {idx : Option String} {figure : StatFigure} {figures : List StatFigure}
  {rows : List (Int × List Value)}

/-- `_find_row` finds the first row about a tree. -/
theorem Legible.find (h : Legible rows) (tbl : String) (idx : Option String) :
    findStat1Row tbl idx (rows.map Prod.snd) =
      .ok ((rows.find? fun row => About tbl idx row).bind fun row => (stat1RowOf row.2).toOption) := by
  induction rows with
  | nil => rfl
  | cons row rows ih =>
      obtain ⟨hrow, hrows⟩ := List.forall_mem_cons.mp h
      obtain ⟨stat, hstat⟩ := hrow
      have habout : About tbl idx row ↔ stat.tbl = tbl ∧ stat.idx = idx := by simp [About, hstat]
      rw [List.map_cons, findStat1Row, hstat, List.find?_cons]
      by_cases hmatch : stat.tbl = tbl ∧ stat.idx = idx
      · simp [habout, hmatch, hstat, bind, Except.bind, Except.toOption]
      · simp only [bind, Except.bind, habout, hmatch, if_false, decide_false]
        exact ih hrows

end Found

/-! ## Writing them -/

section Written

variable {header : PageContent} {slots : List (TreeKind × Nat)} {content : Content} {s : PageStore} {root : Nat}

/-- `_clear_rows`: the rows about a tree go. -/
theorem clearRows_post (hs : Stores header slots content s) (hslot : (.table, root) ∈ slots) (tbl : String)
    (idx : Option String) : Post (StatisticsCatalog.clearRows root tbl idx) s (fun _ s' =>
      Legible (content.rows root) ∧
        Stores header slots (content.setRows root ((content.rows root).filter fun row => ¬ About tbl idx row)) s')
      fun _ _ => True := by
  -- what a turn of the loop makes of a row
  let see (row : Int × List Value) : Except DbError (List Int) :=
    (stat1RowOf row.2).map fun stat => if (stat.tbl, stat.idx) = (tbl, idx) then [row.1] else []
  have habout : ∀ row rowids, see row = .ok rowids → rowids = if About tbl idx row then [row.1] else [] := by
    intro row rowids hsee
    cases hstat : stat1RowOf row.2 with
    | error e => simp [see, hstat, Except.map] at hsee
    | ok stat =>
        simp only [see, hstat, Except.map, Except.ok.injEq] at hsee
        simp [← hsee, About, hstat]
  rw [StatisticsCatalog.clearRows]
  apply (hs.each see hslot ?_).bind ?_ fun _ _ _ => trivial
  · intro row payload hdecode
    rw [decodeStat1Row_eq hdecode]
    cases hstat : stat1RowOf row.2 with
    | error e => simp only [see, hstat]; rfl
    | ok stat => simp only [see, hstat]; rfl
  · rintro stale s' ⟨hs', hstale⟩
    subst hs'
    apply (hs.deletes hslot stale.flatten).mono ?_ fun _ _ _ => trivial
    intro _ s' hs'
    have hasc := hs.ascending hslot
    have hlegible : Legible (content.rows root) := by
      intro row hrow
      obtain ⟨rowids, -, hsee⟩ := exists_right hstale hrow
      cases hstat : stat1RowOf row.2 with
      | error e => simp [see, hstat, Except.map] at hsee
      | ok stat => exact ⟨stat, rfl⟩
    have hsame : (content.rows root).filter (fun row => row.1 ∉ stale.flatten) =
        (content.rows root).filter fun row => ¬ About tbl idx row := by
      apply List.filter_congr
      intro row hrow
      rw [decide_eq_decide, not_iff_not, List.mem_flatten]
      constructor
      · rintro ⟨rowids, hrowids, hmem⟩
        obtain ⟨other, hother, hsee⟩ := exists_left hstale hrowids
        rw [habout other rowids hsee] at hmem
        split at hmem
        · rw [row_unique hasc hrow hother (List.mem_singleton.mp hmem)]
          assumption
        · cases hmem
      · intro h
        obtain ⟨rowids, hrowids, hsee⟩ := exists_right hstale hrow
        refine ⟨rowids, hrowids, ?_⟩
        rw [habout row rowids hsee, if_pos h]
        exact List.mem_singleton_self _
    rw [hsame] at hs'
    exact ⟨hlegible, hs'⟩

/-- `_write_row`: a row with the figures comes behind the others. -/
theorem writeRow_post (hs : Stores header slots content s) (hslot : (.table, root) ∈ slots) (tbl : String)
    (figure : StatFigure) :
    Post (StatisticsCatalog.writeRow root tbl figure.idx figure.stat figure.pageCount figure.height) s (fun _ s' =>
      Stores header slots (content.setRows root
        (content.rows root ++ [(nextRowidOf (content.rows root), figure.values tbl)])) s') fun _ _ => True := by
  unfold StatisticsCatalog.writeRow
  rw [post_bind, post_lift]
  refine ⟨fun payload hpayload => ?_, fun _ _ => trivial⟩
  rw [post_bind]
  apply Post.of_eq (hs.nextRowid hslot)
  exact (hs.append hslot hpayload).mono (fun _ _ h => h) fun _ _ _ => trivial

/-- The row about a tree is replaced. -/
theorem restate_post (hs : Stores header slots content s) (hslot : (.table, root) ∈ slots) (tbl : String)
    (figure : StatFigure) :
    Post (do
        StatisticsCatalog.clearRows root tbl figure.idx
        StatisticsCatalog.writeRow root tbl figure.idx figure.stat figure.pageCount figure.height) s (fun _ s' =>
      Legible (content.rows root) ∧
        Stores header slots (content.setRows root (restated tbl (content.rows root) figure)) s') fun _ _ => True := by
  apply (clearRows_post hs hslot tbl figure.idx).bind ?_ fun _ _ _ => trivial
  rintro _ s₁ ⟨hlegible, hs₁⟩
  have hwrite := writeRow_post hs₁ hslot tbl figure
  rw [Content.setRows_rows, Content.setRows_setRows] at hwrite
  exact hwrite.mono (fun _ _ hs₂ => ⟨hlegible, hs₂⟩) fun _ _ _ => trivial

end Written

/-! ## One table and its indexes -/

/-- What ANALYZE writes about a table with these rows. -/
structure TableFigure (rows : List (Int × List Value)) (figure : StatFigure) : Prop where
  idx : figure.idx = none
  stat : figure.stat = toString rows.length
  shape : 1 ≤ figure.height ∧ figure.height ≤ figure.pageCount

/-- What ANALYZE writes about an index with these keys: it counts those in leaves. -/
structure IndexFigure (listEq : List Value → List Value → Bool) (keys : List (List Value)) (index : IndexSchema)
    (figure : StatFigure) : Prop where
  idx : figure.idx = some index.name
  stat : ∃ leafKeys, leafKeys.Sublist keys ∧ leafKeys.length + figure.pageCount = keys.length + 1 ∧
    figure.stat = encodeStat1Row
      ⟨leafKeys.length, rowsPerPrefix listEq leafKeys index.columns.length, figure.height, figure.pageCount⟩

/-- The figures of a table and its indexes. -/
def Figures (listEq : List Value → List Value → Bool) (content : Content) (indexes : List IndexSchema)
    (table : TableSchema) (figures : List StatFigure) : Prop :=
  ∃ first rest, figures = first :: rest ∧ TableFigure (content.rows table.rootPage) first ∧
    List.Forall₂ (fun index => IndexFigure listEq (content.keys index.rootPage) index) indexes rest

section Analyzed

variable {listEq : List Value → List Value → Bool} {header : PageContent} {slots : List (TreeKind × Nat)}
  {content : Content} {s : PageStore} {root : Nat} {indexes : List IndexSchema} {table : TableSchema}

theorem Figures.idx {figures : List StatFigure} (h : Figures listEq content indexes table figures) :
    figures.map StatFigure.idx = none :: indexes.map fun index => some index.name := by
  obtain ⟨first, rest, rfl, hfirst, hrest⟩ := h
  rw [List.map_cons, hfirst.idx]
  congr 1
  induction hrest with
  | nil => rfl
  | cons hfigure _ ih => rw [List.map_cons, List.map_cons, hfigure.idx, ih]

/-- The loop over the indexes. -/
theorem analyzeIndexes_post (hs : Stores header slots content s) (hslot : (.table, root) ∈ slots) (tbl : String)
    (hindexes : ∀ index ∈ indexes, (.index, index.rootPage) ∈ slots) :
    Post (indexes.forM fun index => do
        let stats ← measureIndex listEq index.rootPage index.columns.length
        StatisticsCatalog.clearRows root tbl (some index.name)
        StatisticsCatalog.writeRow root tbl (some index.name) (encodeStat1Row stats) stats.leafPages stats.height) s
      (fun _ s' => ∃ figures,
        List.Forall₂ (fun index => IndexFigure listEq (content.keys index.rootPage) index) indexes figures ∧
        Stores header slots (content.setRows root (figures.foldl (restated tbl) (content.rows root))) s')
      fun _ _ => True := by
  induction indexes generalizing content s with
  | nil => exact ⟨[], .nil, by simpa using hs⟩
  | cons index indexes ih =>
      obtain ⟨leafKeys, leafPages, height, hmeasure, hsub, hcount, -⟩ :=
        hs.measureIndex_eq (hindexes index (List.mem_cons_self ..)) listEq index.columns.length
      let stats : IndexStats := ⟨leafKeys.length, rowsPerPrefix listEq leafKeys index.columns.length, height, leafPages⟩
      have hfirst : Post (do
          let stats ← measureIndex listEq index.rootPage index.columns.length
          StatisticsCatalog.clearRows root tbl (some index.name)
          StatisticsCatalog.writeRow root tbl (some index.name) (encodeStat1Row stats) stats.leafPages stats.height) s
          (fun _ s' => Stores header slots (content.setRows root (restated tbl (content.rows root)
            ⟨some index.name, encodeStat1Row stats, leafPages, height⟩)) s') fun _ _ => True := by
        rw [post_bind]
        apply Post.of_eq hmeasure
        have hrestate := restate_post hs hslot tbl ⟨some index.name, encodeStat1Row stats, leafPages, height⟩
        exact hrestate.mono (fun _ _ h => h.2) fun _ _ _ => trivial
      apply hfirst.bind ?_ fun _ _ _ => trivial
      intro _ s₁ hs₁
      apply (ih hs₁ fun other hother => hindexes other (List.mem_cons_of_mem _ hother)).mono ?_ fun _ _ _ => trivial
      rintro _ s₂ ⟨figures, hfigures, hs₂⟩
      rw [Content.setRows_rows, Content.setRows_setRows] at hs₂
      exact ⟨_ :: figures, .cons ⟨rfl, leafKeys, hsub, hcount, rfl⟩ hfigures, hs₂⟩

/-- `_analyze_table`: the rows about the table and its indexes are replaced. -/
theorem analyzeTable_post (hs : Stores header slots content s) (hslot : (.table, root) ∈ slots)
    (htable : (.table, table.rootPage) ∈ slots) (hindexes : ∀ index ∈ indexes, (.index, index.rootPage) ∈ slots) :
    Post (StatisticsCatalog.analyzeTable listEq root indexes table) s (fun _ s' => ∃ figures,
      Figures listEq content indexes table figures ∧ Legible (content.rows root) ∧
      Stores header slots (content.setRows root (figures.foldl (restated table.name) (content.rows root))) s')
      fun _ _ => True := by
  obtain ⟨pageCount, height, hmeasure, hheight, hpages, -⟩ := hs.measureTable_eq htable
  let first : StatFigure := ⟨none, toString (content.rows table.rootPage).length, pageCount, height⟩
  rw [StatisticsCatalog.analyzeTable, post_bind]
  apply Post.of_eq hmeasure
  rw [post_bind]
  have hfirst := restate_post hs hslot table.name first
  rw [post_bind] at hfirst
  apply hfirst.mono ?_ fun _ _ _ => trivial
  intro _ s₁ hs₁
  rw [post_bind]
  apply hs₁.mono ?_ fun _ _ _ => trivial
  rintro _ s₂ ⟨hlegible, hs₂⟩
  apply (analyzeIndexes_post hs₂ hslot table.name hindexes).mono ?_ fun _ _ _ => trivial
  rintro _ s₃ ⟨figures, hfigures, hs₃⟩
  rw [Content.setRows_rows, Content.setRows_setRows] at hs₃
  exact ⟨first :: figures, ⟨first, figures, rfl, ⟨rfl, rfl, hheight, hpages⟩, hfigures⟩, hlegible, hs₃⟩

/-- The tables that ANALYZE is about. -/
def StatisticsCatalog.analyzed (casefold : String → String) (catalog : Catalog) :
    Option String → Except DbError (List TableSchema)
  | none => .ok (catalog.listTables.filter fun table => table.name ≠ stat1TableName)
  | some name => do
      let table ← catalog.getTable casefold name
      .ok [table]

/-- `analyze`: what holds of the tables done so far holds of all in the end, if the figures
of each table keep it. -/
theorem analyze_post {casefold : String → String} {target : Option String} {db : Database} {catalog : Catalog}
    {I : List TableSchema → Content → Prop} (hcatalog : db.catalog = catalog)
    (hs : Stores header catalog.slots content db.store) (hcontent : I [] content)
    (hslot : (.table, root) ∈ catalog.slots)
    (hI : ∀ done content s, Stores header catalog.slots content s → I done content → ∀ t ∈ catalog.tables, ∀ figures,
      Figures listEq content (catalog.indexesFor casefold t.2.name) t.2 figures → Legible (content.rows root) →
        I (done ++ [t.2]) (content.setRows root (figures.foldl (restated t.2.name) (content.rows root)))) :
    Post (StatisticsCatalog.analyze listEq casefold root target) db (fun _ db' => db'.catalog = catalog ∧
      ∃ tables content', StatisticsCatalog.analyzed casefold catalog target = .ok tables ∧
        Stores header catalog.slots content' db'.store ∧ I tables content') fun _ _ => True := by
  let J (done : List TableSchema) (db : Database) : Prop :=
    db.catalog = catalog ∧ ∃ content', Stores header catalog.slots content' db.store ∧ I done content'
  have hdb : J [] db := ⟨hcatalog, content, hs, hcontent⟩
  have hone : ∀ t ∈ catalog.tables, ∀ done db, J done db →
      Post (onStore (StatisticsCatalog.analyzeTable listEq root (catalog.indexesFor casefold t.2.name) t.2)) db
        (fun _ => J (done ++ [t.2])) fun _ _ => True := by
    rintro t ht done db ⟨hcatalog, content, hs, hcontent⟩
    rw [onStore, post_zoom]
    apply (analyzeTable_post hs hslot (table_mem_slots ht) index_mem_slots).mono ?_ fun _ _ _ => trivial
    rintro _ s' ⟨figures, hfigures, hlegible, hs'⟩
    exact ⟨hcatalog, _, hs', hI done content _ hs hcontent t ht figures hfigures hlegible⟩
  have hbump : ∀ done db, J done db → Post bumpSchemaCookie db (fun _ => J done) fun _ _ => True :=
    fun done db h => h
  rw [StatisticsCatalog.analyze, post_bind, post_state, hcatalog]
  cases target with
  | none =>
      have hloop : ∀ tables ⊆ catalog.tables.map Prod.snd, ∀ done db, J done db →
          Post (tables.forM fun table =>
            onStore (StatisticsCatalog.analyzeTable listEq root (catalog.indexesFor casefold table.name) table)) db
            (fun _ => J (done ++ tables)) fun _ _ => True := by
        intro tables
        induction tables with
        | nil =>
            intro _ done db hdb
            rw [List.append_nil]
            exact hdb
        | cons table tables ih =>
            intro htables done db hdb
            obtain ⟨t, ht, rfl⟩ := List.mem_map.mp (htables (List.mem_cons_self ..))
            apply (hone t ht done db hdb).bind ?_ fun _ _ _ => trivial
            intro _ db₁ hdb₁
            have hrest := ih (fun u hu => htables (List.mem_cons_of_mem _ hu)) _ _ hdb₁
            rwa [List.append_assoc, List.singleton_append] at hrest
      have hsub : (catalog.listTables.filter fun table => table.name ≠ stat1TableName) ⊆
          catalog.tables.map Prod.snd := by
        intro table htable
        obtain ⟨t, ht, rfl⟩ := List.mem_map.mp (List.mem_filter.mp htable).1
        exact List.mem_map_of_mem ((List.mem_insertionSort _).mp ht)
      apply (hloop _ hsub [] db hdb).bind ?_ fun _ _ _ => trivial
      intro _ db₁ hdb₁
      apply (hbump _ db₁ hdb₁).mono ?_ fun _ _ _ => trivial
      rintro _ db₂ ⟨hcatalog₂, content', hs', hI'⟩
      exact ⟨hcatalog₂, _, content', rfl, hs', hI'⟩
  | some name =>
      rw [post_bind, post_lift]
      refine ⟨fun table htable => ?_, fun _ _ => trivial⟩
      have hanalyzed : StatisticsCatalog.analyzed casefold catalog (some name) = .ok [table] := by
        rw [StatisticsCatalog.analyzed, htable]
        rfl
      obtain ⟨t, ht, rfl⟩ := mem_tables htable
      apply (hone t ht [] db hdb).bind ?_ fun _ _ _ => trivial
      intro _ db₁ hdb₁
      apply (hbump _ db₁ hdb₁).mono ?_ fun _ _ _ => trivial
      rintro _ db₂ ⟨hcatalog₂, content', hs', hI'⟩
      exact ⟨hcatalog₂, _, content', hanalyzed, hs', hI'⟩

end Analyzed

end QuillDb
