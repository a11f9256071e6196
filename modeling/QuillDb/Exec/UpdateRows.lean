/-
  Exec/UpdateRows.lean --- UPDATE on a table and its indexes.

  Source: `Update.next` and `Update._apply` of `quilldb/exec/operators.py`.

  The rows are found first and assigned one after the other, each from its values before
  the statement.  The probe of a UNIQUE index sees the rows that were assigned before.
-/
import QuillDb.Exec.Coherent

set_option autoImplicit false

namespace QuillDb

open Prog PageStore Fallible

/-! ## Keys that change -/

section KeyChange

variable {casefold : String → String} {ops : FloatOps} {table : TableSchema} {index : IndexSchema}
  {positions : List Nat} {oldValues newValues : List Value} {assignments : List BoundAssignment}

/-- The keys of a row before and behind its assignments. -/
theorem keyChange_eq (h : indexColumns casefold table index = .ok positions)
    (hold : oldValues.length = table.columns.length) (hnew : newValues.length = table.columns.length) :
    keyChange casefold table assignments oldValues newValues index = .ok ⟨index, keyAt positions oldValues,
      keyAt positions newValues,
      keysDiffer assignments positions (keyAt positions oldValues) (keyAt positions newValues)⟩ := by
  have hlt := lt_of_indexColumns h
  rw [keyChange, h]
  refine bind_eq_ok_iff.mpr ⟨positions, rfl, bind_eq_ok_iff.mpr ⟨_, pickColumns_eq fun i hi => ?_,
    bind_eq_ok_iff.mpr ⟨_, pickColumns_eq fun i hi => ?_, rfl⟩⟩⟩
  · exact hold ▸ hlt i hi
  · exact hnew ▸ hlt i hi

/-- A column that keeps its object keeps its value. -/
theorem getD_of_keepsObject (hnew : assignedRow ops oldValues assignments oldValues = .ok newValues) {i : Nat}
    (hi : i < oldValues.length) (h : keepsObject assignments i = true) :
    newValues.getD i .null = oldValues.getD i .null := by
  obtain ⟨hlength, hcolumns⟩ := assignedRow_ok hnew
  obtain ⟨hkept, hassigned⟩ := hcolumns i
  have hlast : (assignments.filter fun assignment => assignment.columnIndex = i).getLast? =
      lastAssigned assignments i := rfl
  unfold keepsObject at h
  rw [hlast] at h
  rw [List.getD_eq_getElem?_getD, List.getD_eq_getElem?_getD]
  congr 1
  cases hassignment : lastAssigned assignments i with
  | none => exact hkept hassignment
  | some assignment =>
      rw [hassignment] at h
      obtain ⟨v, hv, hlands⟩ := hassigned assignment hassignment
      obtain ⟨column, value⟩ := assignment
      cases value with
      | column c =>
          obtain rfl := of_decide_eq_true h
          rw [evaluate, List.getElem?_eq_getElem hi] at hv
          have hvalue := List.getElem?_eq_getElem (hlength.symm ▸ hi : c.index < newValues.length)
          rw [hvalue, List.getElem?_eq_getElem hi, hlands _ hvalue, ← Except.ok.inj hv]
      | _ => cases h

/-- `old_key == new_key`: the keys have one place. -/
theorem keyPlace_of_not_differ (hnew : assignedRow ops oldValues assignments oldValues = .ok newValues)
    (hlt : ∀ i ∈ positions, i < oldValues.length)
    (hold : ∀ v ∈ keyAt positions oldValues, ¬ v.isNan) (hnan : ∀ v ∈ keyAt positions newValues, ¬ v.isNan)
    (h : keysDiffer assignments positions (keyAt positions oldValues) (keyAt positions newValues) = false) :
    keyPlace (keyAt positions newValues) = keyPlace (keyAt positions oldValues) := by
  unfold keyPlace keyAt at *
  rw [List.map_map, List.map_map]
  apply List.map_congr_left
  intro i hi
  have hpair : (i, oldValues.getD i .null, newValues.getD i .null) ∈
      positions.zip ((positions.map fun i => oldValues.getD i .null).zip
        (positions.map fun i => newValues.getD i .null)) := by
    have hzip := List.zip_map' (f := id) (g := fun i => (oldValues.getD i .null, newValues.getD i .null))
      (l := positions)
    rw [List.map_id] at hzip
    rw [List.zip_map', hzip]
    exact List.mem_map_of_mem hi
  have hsame := List.any_eq_false.mp h _ hpair
  rw [Bool.not_eq_true', Bool.not_eq_false, Bool.or_eq_true] at hsame
  rcases hsame with hkeeps | heq
  · exact congrArg Value.place (getD_of_keepsObject hnew (hlt i hi) hkeeps)
  · have ha := comparable_singleton (hold _ (List.mem_map_of_mem hi))
    have hb := comparable_singleton (hnan _ (List.mem_map_of_mem hi))
    have hplace := (compareKeys_eq ha hb).mp (compare_eq_pyEq.mpr heq)
    exact (List.cons.inj hplace).1.symm

end KeyChange

/-! ## One row -/

section Apply

variable {casefold : String → String} {ops : FloatOps} {header : PageContent} {slots : List (TreeKind × Nat)}
  {table : TableSchema} {indexes : List IndexSchema} {before content : Content} {s : PageStore}
  {xs ys : List (Int × List Value)} {rowid : Int} {oldValues newValues : List Value}
  {assignments : List BoundAssignment}

/-- In rows that ascend, those with another rowid. -/
theorem mem_others (hasc : (xs ++ (rowid, oldValues) :: ys).Pairwise fun a b => a.1 < b.1)
    {other : Int × List Value} :
    other ∈ xs ++ ys ↔ other ∈ xs ++ (rowid, oldValues) :: ys ∧ other.1 ≠ rowid := by
  rw [← filter_ne_of_ascending hasc rfl, List.mem_filter, decide_eq_true_iff]

/-- The probe of one index, if the key changes. -/
theorem checkIndex_post {index : IndexSchema} {positions : List Nat} (hs : Stores header slots content s)
    (hp : Planted slots table indexes) (hindex : index ∈ indexes)
    (hasc : (xs ++ (rowid, oldValues) :: ys).Pairwise fun a b => a.1 < b.1)
    (hindexed : Indexed positions (xs ++ (rowid, oldValues) :: ys) (content.keys index.rootPage))
    (hdistinct : ¬ HasDuplicate (keyedBy positions (xs ++ (rowid, oldValues) :: ys)))
    (hnew : Comparable positions.length (keyAt positions newValues)) {differs : Bool}
    (hdiffers : differs = false → keyPlace (keyAt positions newValues) = keyPlace (keyAt positions oldValues)) :
    Post (do
        if differs then
          let conflict ← IndexBTree.findConflict index.rootPage (keyAt positions newValues)
          raiseIf (conflict.any fun other => other ≠ rowid)
            (.uniqueViolation index.name (keyAt positions newValues))) s
      (fun _ s' => s' = s ∧ ∀ other ∈ xs ++ ys, ¬ Clash (keyAt positions newValues) (keyAt positions other.2))
      fun e s' => s' = s ∧ (∃ other ∈ xs ++ ys, Clash (keyAt positions newValues) (keyAt positions other.2)) ∧
        e = .uniqueViolation index.name (keyAt positions newValues) := by
  have hrow : (rowid, oldValues) ∈ xs ++ (rowid, oldValues) :: ys := by simp
  cases differs with
  | false =>
      -- the old key is the row's own, and no other row has it
      refine ⟨rfl, fun other hother hclash => hdistinct ?_⟩
      obtain ⟨hother, hne⟩ := (mem_others hasc).mp hother
      have hold := hindexed.comparable_keyAt hrow
      have holdClash := hclash.of_place hnew hold (hindexed.comparable_keyAt hother) (hdiffers rfl)
      exact ⟨_, List.mem_map_of_mem hrow, _, List.mem_map_of_mem hother, hne.symm, holdClash⟩
  | true =>
      apply (probe_post hs hp hindex hindexed hnew fun conflict => conflict.any fun other => other ≠ rowid).mono
      · rintro _ s' ⟨hs', hnone⟩
        refine ⟨hs', fun other hother hclash => ?_⟩
        obtain ⟨hother, hne⟩ := (mem_others hasc).mp hother
        have hsome := (hindexed.conflict_other_iff hdistinct hnew rowid).mpr ⟨other, hother, hne, hclash⟩
        rw [hnone] at hsome
        cases hsome
      · rintro e s' ⟨hs', hsome, he⟩
        obtain ⟨other, hother, hne, hclash⟩ := (hindexed.conflict_other_iff hdistinct hnew rowid).mp hsome
        exact ⟨hs', ⟨other, (mem_others hasc).mpr ⟨hother, hne⟩, hclash⟩, he⟩

/-- The keys of a row whose assignments succeed. -/
structure Change (casefold : String → String) (table : TableSchema) (assignments : List BoundAssignment)
    (oldValues newValues : List Value) (index : IndexSchema) (positions : List Nat) (differs : Bool) : Prop where
  columns : indexColumns casefold table index = .ok positions
  change : keyChange casefold table assignments oldValues newValues index =
    .ok ⟨index, keyAt positions oldValues, keyAt positions newValues, differs⟩
  comparable : Comparable positions.length (keyAt positions newValues)
  same : differs = false → keyPlace (keyAt positions newValues) = keyPlace (keyAt positions oldValues)

theorem exists_change {keys : Nat → List (List Value)}
    (hc : Coherent casefold table indexes (xs ++ (rowid, oldValues) :: ys) keys)
    (hassigned : assignedRow ops oldValues assignments oldValues = .ok newValues)
    (hnan : NanFree casefold table indexes newValues) :
    ∀ index ∈ indexes, ∃ positions differs,
      Change casefold table assignments oldValues newValues index positions differs := by
  intro index hindex
  have hrow : (rowid, oldValues) ∈ xs ++ (rowid, oldValues) :: ys := by simp
  have hold : oldValues.length = table.columns.length := hc.widths _ hrow
  have hnew : newValues.length = table.columns.length := (assignedRow_ok hassigned).1.trans hold
  obtain ⟨positions, hpositions, hindexed, -⟩ := hc.indexed index hindex
  have hcomparable := hnan.comparable hindex hpositions hnew
  refine ⟨positions, _, hpositions, keyChange_eq hpositions hold hnew, hcomparable, ?_⟩
  have hlt : ∀ i ∈ positions, i < oldValues.length := fun i hi => hold ▸ lt_of_indexColumns hpositions i hi
  exact keyPlace_of_not_differ hassigned hlt (hindexed.comparable_keyAt hrow).2 hcomparable.2

/-- The checks of `_apply`. -/
theorem checks_post (hs : Stores header slots content s) (hp : Planted slots table indexes)
    (hasc : (xs ++ (rowid, oldValues) :: ys).Pairwise fun a b => a.1 < b.1)
    (hc : Coherent casefold table indexes (xs ++ (rowid, oldValues) :: ys) content.keys)
    (hchange : ∀ index ∈ indexes, ∃ positions differs,
      Change casefold table assignments oldValues newValues index positions differs) :
    Post (indexes.forM fun index => do
        if index.unique then
          let change ← lift (keyChange casefold table assignments oldValues newValues index)
          if change.differs then
            let conflict ← IndexBTree.findConflict index.rootPage change.newKey
            raiseIf (conflict.any fun other => other ≠ rowid) (.uniqueViolation index.name change.newKey)) s
      (fun _ s' => s' = s ∧ ¬ Rejected casefold table indexes (xs ++ ys) newValues)
      fun e s' => s' = s ∧ Rejected casefold table indexes (xs ++ ys) newValues ∧
        ∃ index ∈ indexes, ∃ key, e = .uniqueViolation index.name key := by
  let clashes (index : IndexSchema) : Prop := ∃ positions, indexColumns casefold table index = .ok positions ∧
    ∃ other ∈ xs ++ ys, Clash (keyAt positions newValues) (keyAt positions other.2)
  refine (Post.checks (fun index => index.unique = true → ¬ clashes index)
    (fun index e => index.unique = true ∧ clashes index ∧ ∃ key, e = .uniqueViolation index.name key)
    fun index hindex => ?_).mono ?_ ?_
  · split
    · rename_i hunique
      obtain ⟨positions, differs, hcols⟩ := hchange index hindex
      obtain ⟨positions', hpositions', hindexed, hdistinct⟩ := hc.indexed index hindex
      obtain rfl := Except.ok.inj (hcols.columns.symm.trans hpositions')
      rw [hcols.change, post_bind, post_lift_ok]
      apply (checkIndex_post hs hp hindex hasc hindexed (hdistinct hunique) hcols.comparable hcols.same).mono
      · rintro _ s' ⟨hs', hnone⟩
        refine ⟨hs', ?_⟩
        rintro - ⟨positions', hpositions', other, hother, hclash⟩
        obtain rfl := Except.ok.inj (hcols.columns.symm.trans hpositions')
        exact hnone other hother hclash
      · rintro e s' ⟨hs', hclash, he⟩
        exact ⟨hs', hunique, ⟨positions, hcols.columns, hclash⟩, _, he⟩
    · rename_i hunique
      exact ⟨rfl, fun h => absurd h hunique⟩
  · rintro _ s' ⟨hs', hnone⟩
    refine ⟨hs', ?_⟩
    rintro ⟨index, hindex, hunique, hclash⟩
    exact hnone index hindex hunique hclash
  · rintro e s' ⟨hs', index, hindex, hunique, hclash, he⟩
    exact ⟨hs', ⟨index, hindex, hunique, hclash⟩, index, hindex, he⟩

/-- The rows below a rowid. -/
theorem filter_lt_of_split {k : Int} (hxs : ∀ row ∈ xs, row.1 < k) (hys : ∀ row ∈ ys, k < row.1) :
    (xs ++ ys).filter (fun row => row.1 < k) = xs := by
  have hfront : xs.filter (fun row => row.1 < k) = xs := by
    simpa [List.filter_eq_self] using fun a b hab => hxs (a, b) hab
  have hback : ys.filter (fun row => row.1 < k) = [] := by
    simpa [List.filter_eq_nil_iff] using fun a b hab => (hys (a, b) hab).le
  rw [List.filter_append, hfront, hback, List.append_nil]

/-- The new row takes the place of the old one. -/
theorem replaceRow_spec {root : Nat} (hs : Stores header slots content s) (hslot : (.table, root) ∈ slots)
    (hrows : content.rows root = xs ++ (rowid, oldValues) :: ys) :
    Post (replaceRow root rowid oldValues newValues) s
      (fun _ s' => Stores header slots (content.setRows root (xs ++ (rowid, newValues) :: ys)) s')
      fun e _ => e.Ordinary := by
  have hasc := hs.ascending hslot
  rw [hrows] at hasc
  obtain ⟨-, hright, hcross⟩ := List.pairwise_append.mp hasc
  have hxs : ∀ row ∈ xs, row.1 < rowid := fun row hrow => hcross row hrow _ (List.mem_cons_self ..)
  have hys : ∀ row ∈ ys, rowid < row.1 := (List.pairwise_cons.mp hright).1
  rw [replaceRow]
  apply (hs.delete hslot rowid).bind ?_ fun _ _ he => he
  intro _ s₁ hs₁
  rw [hrows, filter_ne_of_ascending hasc rfl] at hs₁
  have hinsert : Post (do
      let payload ← lift (encodeRecord newValues)
      BTree.insert root rowid payload) s₁
      (fun _ s' => Stores header slots (content.setRows root (xs ++ (rowid, newValues) :: ys)) s')
      fun e _ => e.Ordinary := by
    rw [post_bind, post_lift]
    refine ⟨fun payload hpayload => ?_, encodeRecord_fails newValues⟩
    apply (hs₁.insert hslot rowid hpayload).mono ?_ fun _ _ he => he
    rintro _ s₂ ⟨us, vs, hsplit, hbelow, habove, hs₂⟩
    -- both splits are at the rowid
    rw [Content.setRows_rows] at hsplit
    have hus : xs = us := by rw [← filter_lt_of_split hxs hys, hsplit, filter_lt_of_split hbelow habove]
    subst hus
    rw [List.append_cancel_left hsplit]
    simpa [Content.setRows] using hs₂
  rw [post_handle]
  apply hinsert.mono (fun _ _ hs' => hs')
  intro e s₂ he
  cases e with
  | pageFull message =>
      dsimp only
      rw [post_bind, post_lift]
      refine ⟨fun payload _ => ?_, encodeRecord_fails oldValues⟩
      exact (BTree.insert_raises root rowid payload).post.bind (fun _ _ _ => trivial) fun _ _ he => he
  | _ => exact he

theorem Change.unique {index : IndexSchema} {positions positions' : List Nat} {differs differs' : Bool}
    (h : Change casefold table assignments oldValues newValues index positions differs)
    (h' : Change casefold table assignments oldValues newValues index positions' differs') :
    positions = positions' ∧ differs = differs' := by
  constructor
  · exact Except.ok.inj (h.columns.symm.trans h'.columns)
  · exact congrArg KeyChange.differs (Except.ok.inj (h.change.symm.trans h'.change))

/-- A loop over the keys that change. -/
theorem changes_post (step : Nat → KeyChange → StoreM PUnit)
    {R : List Nat → List (List Value) → List (List Value) → Prop}
    (hs : Stores header slots content s) (hp : Planted slots table indexes)
    (hchange : ∀ index ∈ indexes, ∃ positions differs,
      Change casefold table assignments oldValues newValues index positions differs)
    (hstep : ∀ index ∈ indexes, ∀ positions differs,
      Change casefold table assignments oldValues newValues index positions differs →
        ∀ (content : Content) (s : PageStore), Stores header slots content s →
          Post (step index.rootPage ⟨index, keyAt positions oldValues, keyAt positions newValues, differs⟩) s
            (fun _ s' => ∃ keys, R positions (content.keys index.rootPage) keys ∧
              Stores header slots (content.setKeys index.rootPage keys) s') fun e _ => e.Ordinary) :
    Post (indexes.forM fun index => do
        let change ← lift (keyChange casefold table assignments oldValues newValues index)
        if change.differs then step index.rootPage change) s
      (fun _ s' => ∃ keys : Nat → List (List Value), Stores header slots ⟨content.rows, keys⟩ s' ∧
        (∀ index ∈ indexes, ∀ positions differs,
          Change casefold table assignments oldValues newValues index positions differs →
            (differs = true → R positions (content.keys index.rootPage) (keys index.rootPage)) ∧
              (differs = false → keys index.rootPage = content.keys index.rootPage)) ∧
        ∀ root ∉ indexes.map IndexSchema.rootPage, keys root = content.keys root) fun e _ => e.Ordinary := by
  refine (hs.forM_keys (t := IndexSchema.rootPage) (E := DbError.Ordinary) (R := fun index old new =>
    ∀ positions differs, Change casefold table assignments oldValues newValues index positions differs →
      (differs = true → R positions old new) ∧ (differs = false → new = old))
    (fun index hindex content s hs => ?_) hp.apart).mono (fun _ _ hs' => hs') fun _ _ he => he
  obtain ⟨positions, differs, h⟩ := hchange index hindex
  rw [h.change, post_bind, post_lift_ok]
  cases differs with
  | false =>
      refine ⟨content.keys index.rootPage, fun positions' differs' h' => ?_, by simpa using hs⟩
      obtain ⟨rfl, rfl⟩ := h.unique h'
      simp
  | true =>
      apply (hstep index hindex positions true h content s hs).mono ?_ fun _ _ he => he
      rintro _ s' ⟨keys, hR, hs'⟩
      refine ⟨keys, fun positions' differs' h' => ?_, hs'⟩
      obtain ⟨rfl, rfl⟩ := h.unique h'
      simpa using hR

/-- A table and its indexes with a row replaced. -/
theorem Coherent.replaceAt {keys keys' : Nat → List (List Value)}
    (hc : Coherent casefold table indexes (xs ++ (rowid, oldValues) :: ys) keys)
    (hlen : newValues.length = table.columns.length)
    (hchange : ∀ index ∈ indexes, ∃ positions differs,
      Change casefold table assignments oldValues newValues index positions differs)
    (hkeys : ∀ index ∈ indexes, ∀ positions differs,
      Change casefold table assignments oldValues newValues index positions differs →
        (differs = true → ∃ between, Loses (indexKey positions (rowid, oldValues)) (keys index.rootPage) between ∧
          Gains (indexKey positions (rowid, newValues)) between (keys' index.rootPage)) ∧
        (differs = false → keys' index.rootPage = keys index.rootPage))
    (hrejected : ¬ Rejected casefold table indexes (xs ++ ys) newValues) :
    Coherent casefold table indexes (xs ++ (rowid, newValues) :: ys) keys' := by
  have hmiddle : ∀ row : Int × List Value, (xs ++ row :: ys).Perm (row :: (xs ++ ys)) := fun _ => List.perm_middle
  constructor
  · intro other hother
    rcases List.mem_cons.mp ((hmiddle _).mem_iff.mp hother) with rfl | hother
    · exact hlen
    · exact hc.widths other ((hmiddle _).mem_iff.mpr (List.mem_cons_of_mem _ hother))
  · intro index hindex
    obtain ⟨positions, differs, h⟩ := hchange index hindex
    obtain ⟨positions', hpositions', hindexed, hunique⟩ := hc.indexed index hindex
    obtain rfl := Except.ok.inj (h.columns.symm.trans hpositions')
    have hnew : Comparable (positions.length + 1) (indexKey positions (rowid, newValues)) :=
      comparable_indexKey h.comparable
    have hkept : Indexed positions (xs ++ (rowid, newValues) :: ys) (keys' index.rootPage) := by
      obtain ⟨hchanged, hsame⟩ := hkeys index hindex positions differs h
      cases differs with
      | false =>
          rw [hsame rfl]
          apply hindexed.replace hnew
          rw [indexKey_eq, indexKey_eq, keyPlace_concat]
          exact ⟨h.same rfl, rfl⟩
      | true =>
          obtain ⟨between, hloses, hgains⟩ := hchanged rfl
          exact (hindexed.lose hloses (hmiddle _)).gain hnew hgains (hmiddle _)
    refine ⟨positions, h.columns, hkept, fun hu => ?_⟩
    have hsub : xs ++ ys ⊆ xs ++ (rowid, oldValues) :: ys := ((List.sublist_cons_self _ ys).append_left xs).subset
    apply not_hasDuplicate_insert (fun hdup => hunique hu (hdup.mono hsub))
    · exact fun other hother => hkept.comparable_keyAt hother
    · intro other hother _ hclash
      exact hrejected ⟨index, hindex, hu, positions, h.columns, other, hother, hclash⟩

end Apply

section Update

variable {casefold : String → String} {ops : FloatOps} {header : PageContent} {slots : List (TreeKind × Nat)}
  {indexes : List IndexSchema} {before : Content} {s : PageStore} {xs ys rows : List (Int × List Value)}
  {rowid : Int} {oldValues : List Value} {statement : BoundUpdate}

theorem assignedRow_fails (oldValues : List Value) (assignments : List BoundAssignment) (newValues : List Value) :
    Fails DbError.Ordinary (assignedRow ops oldValues assignments newValues) := by
  induction assignments generalizing newValues with
  | nil => exact Fails.ok _
  | cons assignment rest ih =>
      exact (evaluate_fails _ _).bind fun value => Fails.ite (ih _) (Fails.error trivial)

/-- `applyUpdate` assigns a row in its place, or rejects the new row and changes nothing. -/
theorem applyUpdate_spec (hp : Planted slots statement.table indexes)
    (h : HasRows casefold header slots statement.table indexes before (xs ++ (rowid, oldValues) :: ys) s)
    (hnan : ∀ newValues, assignedRow ops oldValues statement.assignments oldValues = .ok newValues →
      NanFree casefold statement.table indexes newValues) :
    Post (applyUpdate casefold ops indexes statement rowid oldValues) s
      (fun _ s' => ∃ newValues, assignedRow ops oldValues statement.assignments oldValues = .ok newValues ∧
        ¬ Rejected casefold statement.table indexes (xs ++ ys) newValues ∧
          HasRows casefold header slots statement.table indexes before (xs ++ (rowid, newValues) :: ys) s')
      fun e s' => (∃ newValues, assignedRow ops oldValues statement.assignments oldValues = .ok newValues ∧
          Rejected casefold statement.table indexes (xs ++ ys) newValues ∧ s' = s ∧
            ∃ index ∈ indexes, ∃ key, e = .uniqueViolation index.name key) ∨
        e.Ordinary ∧ ∀ newValues, assignedRow ops oldValues statement.assignments oldValues = .ok newValues →
          ¬ Rejected casefold statement.table indexes (xs ++ ys) newValues := by
  have hasc := h.ascending hp
  obtain ⟨keys, hs, hc, hframe⟩ := h
  rw [applyUpdate, post_bind, post_lift]
  constructor
  rotate_left
  · intro e he
    refine .inr ⟨assignedRow_fails _ _ _ e he, fun newValues hnew => ?_⟩
    cases he.symm.trans hnew
  intro newValues hassigned
  have hold : oldValues.length = statement.table.columns.length := hc.widths (rowid, oldValues) (by simp)
  have hchange := exists_change hc hassigned (hnan newValues hassigned)
  have hordinary : ∀ e : DbError, e.Ordinary → ¬ Rejected casefold statement.table indexes (xs ++ ys) newValues →
      e.Ordinary ∧ ∀ newValues, assignedRow ops oldValues statement.assignments oldValues = .ok newValues →
        ¬ Rejected casefold statement.table indexes (xs ++ ys) newValues := by
    intro e he hrejected
    refine ⟨he, fun newValues' hnew' => ?_⟩
    rw [← Except.ok.inj (hassigned.symm.trans hnew')]
    exact hrejected
  dsimp only
  apply (checks_post hs hp hasc hc hchange).bind
  rotate_left
  · rintro e s' ⟨hs', hrejected, he⟩
    exact .inl ⟨newValues, hassigned, hrejected, hs', he⟩
  rintro _ s₀ ⟨hs₀, hrejected⟩
  subst hs₀
  -- the old keys go
  apply (changes_post (fun root change => do let _ ← IndexBTree.delete root change.oldKey rowid)
    (R := fun positions => Loses (indexKey positions (rowid, oldValues))) hs hp hchange ?_).bind
  rotate_left
  · exact fun e _ he => .inr (hordinary e he hrejected)
  · intro index hindex positions differs _ content s hs
    exact (hs.deleteKey (hp.indexAt index hindex) _ rowid).bind (fun _ _ hs' => hs') fun _ _ he => he
  rintro _ s₁ ⟨keys₁, hs₁, hloses, hframe₁⟩
  have hrows : (⟨Function.update before.rows statement.table.rootPage (xs ++ (rowid, oldValues) :: ys), keys₁⟩ :
      Content).rows statement.table.rootPage = xs ++ (rowid, oldValues) :: ys := by simp
  apply (replaceRow_spec hs₁ hp.tableAt hrows).bind ?_ fun e _ he => .inr (hordinary e he hrejected)
  intro _ s₂ hs₂
  simp only [Content.setRows, Function.update_idem] at hs₂
  -- the new keys go in
  apply (changes_post (fun root change => IndexBTree.insert root change.newKey rowid)
    (R := fun positions => Gains (indexKey positions (rowid, newValues))) hs₂ hp hchange ?_).mono
  rotate_left
  · exact fun e _ he => .inr (hordinary e he hrejected)
  · intro index hindex positions differs _ content s hs
    exact hs.insertKey (hp.indexAt index hindex) _ rowid
  rintro _ s₃ ⟨keys₃, hs₃, hgains, hframe₃⟩
  refine ⟨newValues, hassigned, hrejected, keys₃, hs₃, ?_, fun root hroot => ?_⟩
  · apply hc.replaceAt ((assignedRow_ok hassigned).1.trans hold) hchange ?_ hrejected
    intro index hindex positions differs hcols
    obtain ⟨hlost, hkept⟩ := hloses index hindex positions differs hcols
    obtain ⟨hgained, hkept'⟩ := hgains index hindex positions differs hcols
    exact ⟨fun hd => ⟨_, hlost hd, hgained hd⟩, fun hd => (hkept' hd).trans (hkept hd)⟩
  · exact (hframe₃ root hroot).trans ((hframe₁ root hroot).trans (hframe root hroot))

/-! ## All rows -/

/-- A row with its assignments. -/
def updatedRow (ops : FloatOps) (assignments : List BoundAssignment) (row : Int × List Value) : Int × List Value :=
  match assignedRow ops row.2 assignments row.2 with
  | .ok values => (row.1, values)
  | .error _ => row

/-- The table when some of its rows are assigned. -/
def updatedRows (ops : FloatOps) (assignments : List BoundAssignment) (done rows : List (Int × List Value)) :
    List (Int × List Value) :=
  rows.map fun row => if row ∈ done then updatedRow ops assignments row else row

/-- A row is rejected when the rows before it have been assigned. -/
def RejectedAfter (casefold : String → String) (ops : FloatOps) (indexes : List IndexSchema) (statement : BoundUpdate)
    (rows done : List (Int × List Value)) (row : Int × List Value) : Prop :=
  ∃ values, assignedRow ops row.2 statement.assignments row.2 = .ok values ∧
    Rejected casefold statement.table indexes
      ((updatedRows ops statement.assignments done rows).filter fun other => other.1 ≠ row.1) values

theorem updatedRow_of_ok {assignments : List BoundAssignment} {row : Int × List Value} {values : List Value}
    (h : assignedRow ops row.2 assignments row.2 = .ok values) : updatedRow ops assignments row = (row.1, values) := by
  rw [updatedRow, h]

@[simp] theorem updatedRow_rowid (ops : FloatOps) (assignments : List BoundAssignment) (row : Int × List Value) :
    (updatedRow ops assignments row).1 = row.1 := by
  unfold updatedRow
  split <;> rfl

/-- The table around a row that is not assigned yet, and when it is. -/
theorem updatedRows_split (ops : FloatOps) (assignments : List BoundAssignment) {done : List (Int × List Value)}
    {row : Int × List Value} (hasc : (xs ++ row :: ys).Pairwise fun a b => a.1 < b.1) (hrow : row ∉ done) :
    updatedRows ops assignments done (xs ++ row :: ys) =
        updatedRows ops assignments done xs ++ row :: updatedRows ops assignments done ys ∧
      updatedRows ops assignments (done ++ [row]) (xs ++ row :: ys) =
        updatedRows ops assignments done xs ++ updatedRow ops assignments row ::
          updatedRows ops assignments done ys := by
  obtain ⟨-, hright, hcross⟩ := List.pairwise_append.mp hasc
  -- the row is in neither part
  have hparts : ∀ other ∈ xs ++ ys, other ≠ row := by
    intro other hother heq
    subst heq
    rcases List.mem_append.mp hother with hother | hother
    · exact (hcross _ hother _ (List.mem_cons_self ..)).ne rfl
    · exact ((List.pairwise_cons.mp hright).1 _ hother).ne rfl
  have hsame : ∀ zs ⊆ xs ++ ys,
      updatedRows ops assignments (done ++ [row]) zs = updatedRows ops assignments done zs := by
    intro zs hzs
    apply List.map_congr_left
    intro other hother
    simp [hparts other (hzs hother)]
  constructor
  · simp [updatedRows, hrow]
  · have hxs := hsame xs (List.subset_append_left xs ys)
    have hys := hsame ys (List.subset_append_right xs ys)
    rw [← hxs, ← hys]
    simp [updatedRows]

/-- `applyUpdate` on each row of a list. -/
theorem updateAll_post {todo done : List (Int × List Value)} (hp : Planted slots statement.table indexes)
    (hasc : rows.Pairwise fun a b => a.1 < b.1)
    (h : HasRows casefold header slots statement.table indexes before
      (updatedRows ops statement.assignments done rows) s)
    (htodo : todo ⊆ rows) (hnodup : (done ++ todo).Nodup)
    (hnan : ∀ row ∈ todo, ∀ newValues, assignedRow ops row.2 statement.assignments row.2 = .ok newValues →
      NanFree casefold statement.table indexes newValues) :
    Post (todo.forM fun row => applyUpdate casefold ops indexes statement row.1 row.2) s
      (fun _ s' => HasRows casefold header slots statement.table indexes before
          (updatedRows ops statement.assignments (done ++ todo) rows) s' ∧
        (∀ row ∈ todo, ∃ values, assignedRow ops row.2 statement.assignments row.2 = .ok values) ∧
        ∀ front row rest, todo = front ++ row :: rest →
          ¬ RejectedAfter casefold ops indexes statement rows (done ++ front) row)
      fun e s' => e.Ordinary ∨ ∃ front row rest, todo = front ++ row :: rest ∧
        RejectedAfter casefold ops indexes statement rows (done ++ front) row ∧
        HasRows casefold header slots statement.table indexes before
          (updatedRows ops statement.assignments (done ++ front) rows) s' ∧
          ∃ index ∈ indexes, ∃ key, e = .uniqueViolation index.name key := by
  induction todo generalizing done s with
  | nil =>
      rw [List.append_nil]
      refine ⟨h, fun row hrow => absurd hrow List.not_mem_nil, fun front row rest hsplit => ?_⟩
      simp at hsplit
  | cons row todo ih =>
      obtain ⟨xs, ys, rfl⟩ := List.append_of_mem (htodo (List.mem_cons_self ..))
      have hrow : row ∉ done := by
        intro hmem
        exact (List.nodup_append.mp hnodup).2.2 row hmem row (List.mem_cons_self ..) rfl
      obtain ⟨hbefore, hafter⟩ := updatedRows_split ops statement.assignments hasc hrow
      rw [hbefore] at h
      have hascNow := h.ascending hp
      -- what the probe looks at
      have hothers : (updatedRows ops statement.assignments done (xs ++ row :: ys)).filter
          (fun other => other.1 ≠ row.1) = updatedRows ops statement.assignments done xs ++
            updatedRows ops statement.assignments done ys := by
        rw [hbefore]
        exact filter_ne_of_ascending hascNow rfl
      apply (applyUpdate_spec hp h (hnan row (List.mem_cons_self ..))).bind
      · rintro _ s₁ ⟨values, hassigned, hrejected, h₁⟩
        rw [← updatedRow_of_ok hassigned, ← hafter] at h₁
        have hmoved : done ++ [row] ++ todo = done ++ row :: todo := by simp
        apply (ih h₁ (fun other hother => htodo (List.mem_cons_of_mem _ hother)) (hmoved ▸ hnodup)
          fun other hother => hnan other (List.mem_cons_of_mem _ hother)).mono
        · rintro _ s₂ ⟨h₂, hall, hpassed⟩
          rw [hmoved] at h₂
          refine ⟨h₂, List.forall_mem_cons.mpr ⟨⟨values, hassigned⟩, hall⟩, fun front other rest hsplit => ?_⟩
          cases front with
          | nil =>
              obtain ⟨rfl, rfl⟩ := List.cons.inj hsplit
              rintro ⟨values', hassigned', hclash⟩
              rw [List.append_nil, hothers] at hclash
              rw [← Except.ok.inj (hassigned.symm.trans hassigned')] at hclash
              exact hrejected hclash
          | cons first front =>
              obtain ⟨rfl, hrest⟩ := List.cons.inj hsplit
              have hfront := hpassed front other rest hrest
              rwa [List.append_assoc, List.singleton_append] at hfront
        · intro e s₂ he
          rcases he with he | ⟨front, other, rest, hsplit, hclash, h₂, he⟩
          · exact .inl he
          · rw [List.append_assoc, List.singleton_append] at hclash h₂
            exact .inr ⟨row :: front, other, rest, by rw [hsplit, List.cons_append], hclash, h₂, he⟩
      · intro e s₁ he
        rcases he with ⟨values, hassigned, hclash, hs₁, he⟩ | ⟨he, -⟩
        · subst hs₁
          refine .inr ⟨[], row, todo, rfl, ⟨values, hassigned, ?_⟩, ?_, he⟩
          · rwa [List.append_nil, hothers]
          · rwa [List.append_nil, hbefore]
        · exact .inl he

/-- `updateRows` assigns the rows that WHERE is TRUE of, each in its place and from its
values before the statement, and counts them; or it rejects one of them. -/
theorem updateRows_spec (hp : Planted slots statement.table indexes)
    (h : HasRows casefold header slots statement.table indexes before rows s)
    (hnan : ∀ row ∈ rows, passesWhere ops statement.condition row = true → ∀ newValues,
      assignedRow ops row.2 statement.assignments row.2 = .ok newValues →
        NanFree casefold statement.table indexes newValues) :
    Post (updateRows casefold ops indexes statement) s
      (fun count s' => count = rows.countP (passesWhere ops statement.condition) ∧
        (∀ row ∈ rows, ∃ pass, conditionPasses ops statement.condition row.2 = .ok pass) ∧
        HasRows casefold header slots statement.table indexes before
          (rows.map fun row => if passesWhere ops statement.condition row
            then updatedRow ops statement.assignments row else row) s' ∧
        (∀ row ∈ rows, passesWhere ops statement.condition row = true →
          ∃ values, assignedRow ops row.2 statement.assignments row.2 = .ok values) ∧
        ∀ front row rest, rows.filter (passesWhere ops statement.condition) = front ++ row :: rest →
          ¬ RejectedAfter casefold ops indexes statement rows front row)
      fun e s' => e.Ordinary ∨ ∃ front row rest,
        rows.filter (passesWhere ops statement.condition) = front ++ row :: rest ∧
        RejectedAfter casefold ops indexes statement rows front row ∧
        HasRows casefold header slots statement.table indexes before
          (updatedRows ops statement.assignments front rows) s' ∧
          ∃ index ∈ indexes, ∃ key, e = .uniqueViolation index.name key := by
  have hasc := h.ascending hp
  obtain ⟨keys, hs, -⟩ := id h
  have hscan := scanMatchingRows_spec ops statement.condition hs hp.tableAt
  simp only [Function.update_self] at hscan
  rw [updateRows]
  apply hscan.bind
  rotate_left
  · rintro e s' ⟨_, row, _, he⟩
    exact .inl (conditionPasses_fails ops _ _ e he)
  rintro found s' ⟨hs', htold, hfound⟩
  subst hs' hfound
  have hnodup : ([] ++ rows.filter (passesWhere ops statement.condition)).Nodup :=
    (hasc.filter _).imp fun hlt heq => hlt.ne (congrArg Prod.fst heq)
  have hstart : updatedRows ops statement.assignments [] rows = rows := by simp [updatedRows]
  apply (updateAll_post hp hasc (hstart.symm ▸ h) (List.filter_subset_self rows) hnodup fun row hrow =>
    hnan row (List.mem_filter.mp hrow).1 (List.mem_filter.mp hrow).2).bind
  · rintro _ s₁ ⟨h₁, hall, hpassed⟩
    refine ⟨List.countP_eq_length_filter.symm, htold, ?_, fun row hrow hpass => ?_, hpassed⟩
    · have hend : updatedRows ops statement.assignments (rows.filter (passesWhere ops statement.condition)) rows =
          rows.map fun row => if passesWhere ops statement.condition row
            then updatedRow ops statement.assignments row else row := by
        apply List.map_congr_left
        intro row hrow
        simp [hrow]
      rwa [List.nil_append, hend] at h₁
    · exact hall row (List.mem_filter.mpr ⟨hrow, hpass⟩)
  · exact fun _ _ he => he

end Update

end QuillDb
