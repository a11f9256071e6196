/-
  Exec/WriteSpec.lean --- what the statements that write rows keep.

  Source: `Insert`, `Delete` and `Update` of `quilldb/exec/operators.py`.

  A statement that succeeds leaves the trees of the database where they were, and
  every row of them is an old one or one that it has put there.
-/
import QuillDb.BTree.Forest
import QuillDb.Exec.Write

set_option autoImplicit false

namespace QuillDb

open Prog PageStore Fallible

section WriteSpec

variable {casefold : String → String} {ops : FloatOps} {indexes : List IndexSchema} {s : PageStore}
variable {header : PageContent} {slots : List (TreeKind × Nat)} {ok : Nat → Int → Bytes → Prop}

/-! ## INSERT -/

/-- What a keyed list of indexes lists. -/
theorem mem_of_keyed {key : IndexSchema → Except DbError (List Value)}
    {keyed : List (IndexSchema × List Value)}
    (hkeyed : indexes.mapM (fun index => do
      let key ← key index
      return (index, key)) = .ok keyed) : ∀ p ∈ keyed, p.1 ∈ indexes := by
  intro p hp
  obtain ⟨index, hindex, hpair⟩ := exists_left (mapM_ok hkeyed) hp
  obtain ⟨key, -, hpair⟩ := bind_eq_ok hpair
  exact Except.ok.inj hpair ▸ hindex

theorem insertRow_post {statement : BoundInsert} (hh : Holds header slots ok s)
    (htable : (.table, statement.table.rootPage) ∈ slots)
    (hindexes : ∀ index ∈ indexes, (.index, index.rootPage) ∈ slots)
    (hok : ∀ rowid payload, (TableCursor.nextRowid statement.table.rootPage s).1 = .ok rowid →
      encodeRecord statement.values = .ok payload → ok statement.table.rootPage rowid payload) :
    Post (insertRow casefold indexes statement) s (fun _ s' => Holds header slots ok s')
      fun _ _ => True := by
  rw [insertRow, post_bind, post_lift]
  refine ⟨fun keyed hkeyed => ?_, fun _ _ => trivial⟩
  have hmem := mem_of_keyed hkeyed
  have hprobe : Post (keyed.forM fun p => do
      if p.1.unique then
        let conflict ← IndexBTree.findConflict p.1.rootPage p.2
        raiseIf conflict.isSome (.uniqueViolation p.1.name p.2)) s
      (fun _ s' => s' = s) fun _ _ => True := by
    refine Post.forM (I := fun s' => s' = s) rfl fun p _ s' hs' => ?_
    have hreads : Reads (do
        if p.1.unique then
          let conflict ← IndexBTree.findConflict p.1.rootPage p.2
          raiseIf conflict.isSome (.uniqueViolation p.1.name p.2) : StoreM Unit) :=
      Moves.ite ((findConflict_reads _ _).bind fun conflict => Moves.raiseIf _ _) (Moves.pure _)
    exact hreads.post.mono (fun _ s'' hs'' => hs''.1.trans hs') fun _ _ _ => trivial
  rw [post_bind]
  apply hprobe.mono ?_ fun _ _ he => he
  rintro _ s₁ rfl
  rw [post_bind]
  refine (TableCursor.nextRowid_reads _).post.mono (fun rowid s₂ h₂ => ?_) fun _ _ _ => trivial
  obtain ⟨rfl, hrowid⟩ := h₂
  rw [post_bind, post_lift]
  refine ⟨fun payload hpayload => ?_, fun _ _ => trivial⟩
  rw [post_bind]
  refine (hh.insert htable rowid (hok rowid payload hrowid hpayload)).mono (fun _ s₃ h₃ => ?_) fun _ _ he => he
  exact Post.forM h₃ fun p hp s' hs' => hs'.insertKey (hindexes p.1 (hmem p hp)) p.2 rowid

/-! ## Scans -/

/-- The rows that a statement with a WHERE clause is about. -/
theorem scanMatchingRows_post {table : TableSchema} {condition : Option BoundExpression}
    (hh : Holds header slots ok s) (htable : (.table, table.rootPage) ∈ slots) :
    Post (scanMatchingRows ops table condition) s (fun found s' => s' = s ∧
      ∀ p ∈ found, ∃ payload, ok table.rootPage p.1 payload ∧ decodeRecord payload 0 = .ok p.2 ∧
        conditionPasses ops condition p.2 = .ok true) fun _ _ => True := by
  have hreads : ∀ rowid payload, Reads (do
      let row ← lift (decodeRecord payload 0)
      let pass ← lift (conditionPasses ops condition row)
      return if pass then [(rowid, row)] else [] : StoreM (List (Int × List Value))) :=
    fun rowid payload => (Moves.lift _).bind fun row => (Moves.lift _).bind fun pass => Moves.pure _
  rw [scanMatchingRows, post_bind]
  refine (hh.each hreads htable).mono (fun found s' hs' => ?_) fun _ _ he => he
  obtain ⟨rfl, rows, hok, hfound⟩ := hs'
  refine ⟨rfl, fun p hp => ?_⟩
  obtain ⟨part, hpart, hp⟩ := List.mem_flatten.mp hp
  obtain ⟨r, hr, hvisit⟩ := exists_left hfound hpart
  obtain ⟨row, s₁, hrow, hrest⟩ := exists_of_bind_ok (apply_eq hvisit)
  obtain ⟨pass, s₂, hpass, hrest⟩ := exists_of_bind_ok hrest
  have hdecode : decodeRecord r.stored.data 0 = .ok row := congrArg Prod.fst hrow
  have hpasses : conditionPasses ops condition row = .ok pass := congrArg Prod.fst hpass
  obtain rfl : (if pass then [(r.rowid, row)] else []) = part :=
    Except.ok.inj (congrArg Prod.fst hrest)
  cases pass with
  | false => cases hp
  | true =>
      obtain rfl := List.mem_singleton.mp hp
      exact ⟨_, hok r hr, hdecode, hpasses⟩

/-! ## DELETE -/

theorem deleteRows_post {statement : BoundDelete} (hh : Holds header slots ok s)
    (htable : (.table, statement.table.rootPage) ∈ slots)
    (hindexes : ∀ index ∈ indexes, (.index, index.rootPage) ∈ slots) :
    Post (deleteRows casefold ops indexes statement) s (fun _ s' => Holds header slots ok s')
      fun _ _ => True := by
  rw [deleteRows, post_bind]
  refine (scanMatchingRows_post hh htable).mono (fun found s₁ h₁ => ?_) fun _ _ he => he
  obtain ⟨rfl, -⟩ := h₁
  rw [post_bind]
  refine (Post.forM (I := Holds header slots ok) hh fun p _ s' hs' => ?_).mono (fun _ s' hs' => hs')
    fun _ _ he => he
  rw [post_bind]
  have hkeys : Post (indexes.forM fun index => do
      let key ← lift (entryKey casefold statement.table p.2 index)
      let _ ← IndexBTree.delete index.rootPage key p.1) s'
      (fun _ s'' => Holds header slots ok s'') fun _ _ => True := by
    refine Post.forM hs' fun index hindex t ht => ?_
    rw [post_bind, post_lift]
    refine ⟨fun key _ => ?_, fun _ _ => trivial⟩
    rw [post_bind]
    exact ht.deleteKey (hindexes index hindex) key p.1
  refine hkeys.mono (fun _ s'' hs'' => ?_) fun _ _ he => he
  rw [post_bind]
  exact hs''.delete htable p.1

/-! ## UPDATE -/

/-- Whatever runs first, what raises in the end does not return. -/
theorem post_then_raise {α β : Type} {m : StoreM α} {e : DbError} {Q : β → PageStore → Prop} :
    Post (m >>= fun _ => raise e) s Q fun _ _ => True := by
  unfold Post
  rw [bind_apply]
  rcases m s with ⟨_ | _, s'⟩ <;> trivial

theorem replaceRow_post {root : Nat} {rowid : Int} {oldValues newValues : List Value}
    (hh : Holds header slots ok s) (htable : (.table, root) ∈ slots)
    (hok : ∀ payload, encodeRecord newValues = .ok payload → ok root rowid payload) :
    Post (replaceRow root rowid oldValues newValues) s (fun _ s' => Holds header slots ok s')
      fun _ _ => True := by
  rw [replaceRow, post_bind]
  refine (hh.delete htable rowid).mono (fun _ s₁ h₁ => ?_) fun _ _ he => he
  rw [post_handle]
  have hinsert : Post (do
      let payload ← lift (encodeRecord newValues)
      BTree.insert root rowid payload) s₁ (fun _ s' => Holds header slots ok s') fun _ _ => True := by
    rw [post_bind, post_lift]
    exact ⟨fun payload hpayload => h₁.insert htable rowid (hok payload hpayload), fun _ _ => trivial⟩
  refine hinsert.mono (fun _ _ hs' => hs') fun e s₂ _ => ?_
  cases e with
  | pageFull message =>
      dsimp only
      rw [post_bind, post_lift]
      exact ⟨fun payload _ => post_then_raise, fun _ _ => trivial⟩
  | _ => trivial

theorem applyUpdate_post {statement : BoundUpdate} {rowid : Int} {oldValues : List Value}
    (hh : Holds header slots ok s) (htable : (.table, statement.table.rootPage) ∈ slots)
    (hindexes : ∀ index ∈ indexes, (.index, index.rootPage) ∈ slots)
    (hok : ∀ newValues payload, assignedRow ops oldValues statement.assignments oldValues = .ok newValues →
      encodeRecord newValues = .ok payload → ok statement.table.rootPage rowid payload) :
    Post (applyUpdate casefold ops indexes statement rowid oldValues) s
      (fun _ s' => Holds header slots ok s') fun _ _ => True := by
  rw [applyUpdate, post_bind, post_lift]
  refine ⟨fun newValues hnew => ?_, fun _ _ => trivial⟩
  dsimp only
  generalize keyChange casefold statement.table statement.assignments oldValues newValues = change
  rw [post_bind]
  have hprobe : Post (indexes.forM fun index => do
      if index.unique then
        let change ← lift (change index)
        if change.differs then
          let conflict ← IndexBTree.findConflict index.rootPage change.newKey
          raiseIf (conflict.any fun other => other ≠ rowid) (.uniqueViolation index.name change.newKey)) s
      (fun _ s' => Holds header slots ok s') fun _ _ => True := by
    refine Post.forM hh fun index _ s' hs' => ?_
    have hreads : Reads (do
        if index.unique then
          let change ← lift (change index)
          if change.differs then
            let conflict ← IndexBTree.findConflict index.rootPage change.newKey
            raiseIf (conflict.any fun other => other ≠ rowid) (.uniqueViolation index.name change.newKey) :
          StoreM Unit) := by
      refine Moves.ite (Moves.bind (Moves.lift _) fun change => Moves.ite ?_ (Moves.pure _))
        (Moves.pure _)
      exact (findConflict_reads _ _).bind fun conflict => Moves.raiseIf _ _
    exact hreads.post.mono (fun _ s'' hs'' => hs''.1.symm ▸ hs') fun _ _ _ => trivial
  refine hprobe.mono (fun _ s₁ h₁ => ?_) fun _ _ he => he
  rw [post_bind]
  have hdelete : Post (indexes.forM fun index => do
      let change ← lift (change index)
      if change.differs then
        let _ ← IndexBTree.delete index.rootPage change.oldKey rowid) s₁
      (fun _ s' => Holds header slots ok s') fun _ _ => True := by
    refine Post.forM h₁ fun index hindex s' hs' => ?_
    rw [post_bind, post_lift]
    refine ⟨fun change _ => ?_, fun _ _ => trivial⟩
    split
    · rw [post_bind]
      exact hs'.deleteKey (hindexes index hindex) change.oldKey rowid
    · exact hs'
  refine hdelete.mono (fun _ s₂ h₂ => ?_) fun _ _ he => he
  rw [post_bind]
  refine (replaceRow_post h₂ htable fun payload => hok newValues payload hnew).mono (fun _ s₃ h₃ => ?_)
    fun _ _ he => he
  refine Post.forM h₃ fun index hindex s' hs' => ?_
  rw [post_bind, post_lift]
  refine ⟨fun change _ => ?_, fun _ _ => trivial⟩
  split
  · exact hs'.insertKey (hindexes index hindex) change.newKey rowid
  · exact hs'

/-- `ok` has to hold of the rows that the assignments give, for those rows that the
statement finds. -/
theorem updateRows_post {statement : BoundUpdate} (hh : Holds header slots ok s)
    (htable : (.table, statement.table.rootPage) ∈ slots)
    (hindexes : ∀ index ∈ indexes, (.index, index.rootPage) ∈ slots)
    (hok : ∀ found, (scanMatchingRows ops statement.table statement.condition s).1 = .ok found →
      ∀ p ∈ found, ∀ oldPayload newValues payload, ok statement.table.rootPage p.1 oldPayload →
        assignedRow ops p.2 statement.assignments p.2 = .ok newValues →
          encodeRecord newValues = .ok payload → ok statement.table.rootPage p.1 payload) :
    Post (updateRows casefold ops indexes statement) s (fun _ s' => Holds header slots ok s')
      fun _ _ => True := by
  have hscan := @scanMatchingRows_post ops s header slots ok statement.table statement.condition hh
    htable
  rw [updateRows, post_bind]
  unfold Post at hscan ⊢
  rcases hrun : scanMatchingRows ops statement.table statement.condition s with ⟨_ | found, s₁⟩
  · trivial
  · rw [hrun] at hscan hok
    obtain ⟨rfl, hfound⟩ := hscan
    have hloop : Post (found.forM fun p => applyUpdate casefold ops indexes statement p.1 p.2) s₁
        (fun _ s' => Holds header slots ok s') fun _ _ => True :=
      Post.forM hh fun p hp s' hs' => by
        obtain ⟨oldPayload, hold, -⟩ := hfound p hp
        exact applyUpdate_post hs' htable hindexes fun newValues payload =>
          hok found rfl p hp oldPayload newValues payload hold
    exact hloop.bind (fun _ _ hs' => hs') fun _ _ he => he

end WriteSpec

end QuillDb
