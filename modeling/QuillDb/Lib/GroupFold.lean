/-
  Lib/GroupFold.lean --- folding the members of classes in one pass.

  Elements come with a key, and keys that are the same make a class.  One pass that
  keeps a state for each class met so far ends with what folding each class by itself
  gives, the classes in the order in which they first appear.
-/
import QuillDb.Lib.Fallible
import Mathlib.Data.List.Induction

set_option autoImplicit false

namespace GroupFold

variable {κ α σ ε : Type} (same : κ → κ → Bool)

/-! ## Classes -/

/-- The keys that no earlier key is the same as. -/
def firstKeys : List κ → List κ
  | [] => []
  | k :: ks => k :: (firstKeys ks).filter fun k' => !same k k'

/-- The elements whose key is the same as `k`. -/
def classOf (k : κ) (rows : List (κ × α)) : List α :=
  (rows.filter fun row => same k row.1).map Prod.snd

theorem mem_of_mem_firstKeys {k : κ} {ks : List κ} (h : k ∈ firstKeys same ks) : k ∈ ks := by
  induction ks with
  | nil => cases h
  | cons k' ks ih =>
      rcases List.mem_cons.mp h with rfl | h
      · exact List.mem_cons_self ..
      · exact List.mem_cons_of_mem _ (ih (List.mem_filter.mp h).1)

/-- No two of them are the same. -/
theorem firstKeys_pairwise (ks : List κ) :
    (firstKeys same ks).Pairwise fun k k' => same k k' = false := by
  induction ks with
  | nil => exact List.Pairwise.nil
  | cons k ks ih =>
      refine List.pairwise_cons.mpr ⟨fun k' hk' => ?_, ih.filter _⟩
      rw [← Bool.not_eq_true']
      exact (List.mem_filter.mp hk').2

/-- Every key is the same as one of them. -/
theorem exists_same_firstKeys {same : κ → κ → Bool} (hsame : Equivalence fun a b => same a b = true)
    {k : κ} {ks : List κ} (h : k ∈ ks) : ∃ k' ∈ firstKeys same ks, same k' k = true := by
  induction ks with
  | nil => cases h
  | cons a ks ih =>
      rcases List.mem_cons.mp h with rfl | h
      · exact ⟨k, List.mem_cons_self .., hsame.refl k⟩
      · obtain ⟨k', hk', hkk⟩ := ih h
        by_cases hak : same a k' = true
        · exact ⟨a, List.mem_cons_self .., hsame.trans hak hkk⟩
        · exact ⟨k', List.mem_cons_of_mem _ (List.mem_filter.mpr ⟨hk', by simp [hak]⟩), hkk⟩

theorem any_firstKeys {same : κ → κ → Bool} (hsame : Equivalence fun a b => same a b = true)
    (ks : List κ) (k : κ) :
    ((firstKeys same ks).any fun k' => same k' k) = ks.any fun k' => same k' k := by
  rw [Bool.eq_iff_iff, List.any_eq_true, List.any_eq_true]
  constructor
  · rintro ⟨k', hk', hkk⟩
    exact ⟨k', mem_of_mem_firstKeys same hk', hkk⟩
  · rintro ⟨j, hj, hjk⟩
    obtain ⟨k', hk', hkj⟩ := exists_same_firstKeys hsame hj
    exact ⟨k', hk', hsame.trans hkj hjk⟩

theorem firstKeys_snoc (ks : List κ) (k : κ) :
    firstKeys same (ks ++ [k]) =
      if ks.any (fun k' => same k' k) then firstKeys same ks else firstKeys same ks ++ [k] := by
  induction ks with
  | nil => rfl
  | cons a ks ih =>
      rw [List.cons_append, firstKeys, ih, firstKeys, List.any_cons]
      by_cases hany : (ks.any fun k' => same k' k) = true
      · rw [if_pos hany, hany, Bool.or_true, if_pos rfl]
      · rw [if_neg hany, Bool.not_eq_true _ |>.mp hany, Bool.or_false, List.filter_append]
        by_cases ha : same a k = true
        · simp [ha]
        · simp [ha]

theorem classOf_snoc (k : κ) (rows : List (κ × α)) (row : κ × α) :
    classOf same k (rows ++ [row]) =
      classOf same k rows ++ if same k row.1 then [row.2] else [] := by
  rw [classOf, List.filter_append, List.map_append, classOf]
  by_cases h : same k row.1 = true
  · simp [h]
  · simp [h]

/-! ## The pass -/

variable (init : σ) (step : σ → α → Except ε σ)

/-- One element: its class's state makes a step; a new class starts from `init`. -/
def insert (k : κ) (a : α) : List (κ × σ) → Except ε (List (κ × σ))
  | [] => do
      let s ← step init a
      .ok [(k, s)]
  | (k', s) :: groups =>
      if same k' k then do
        let s' ← step s a
        .ok ((k', s') :: groups)
      else do
        let groups' ← insert k a groups
        .ok ((k', s) :: groups')

/-- The pass over all elements. -/
def pass (groups : List (κ × σ)) (rows : List (κ × α)) : Except ε (List (κ × σ)) :=
  rows.foldlM (fun groups row => insert same init step row.1 row.2 groups) groups

/-- The state of a class is what folding the class gives. -/
def Folded (rows : List (κ × α)) (k : κ) (group : κ × σ) : Prop :=
  group.1 = k ∧ (classOf same k rows).foldlM step init = .ok group.2

section Pass

variable {same init step} {rows : List (κ × α)} {k k' : κ} {a : α} {keys : List κ}

theorem folded_snoc_of_ne (h : same k' k = false) (group : κ × σ) :
    Folded same init step (rows ++ [(k, a)]) k' group ↔ Folded same init step rows k' group := by
  rw [Folded, classOf_snoc, if_neg (by simp [h]), List.append_nil, Folded]

theorem folded_snoc_of_same (h : same k' k = true) {group group' : κ × σ}
    (hgroup : Folded same init step rows k' group) :
    Folded same init step (rows ++ [(k, a)]) k' group' ↔ group'.1 = k' ∧ step group.2 a = .ok group'.2 := by
  rw [Folded, classOf_snoc, if_pos h, List.foldlM_append, hgroup.2]
  refine and_congr_right fun _ => ?_
  show List.foldlM step group.2 [a] = _ ↔ _
  rw [List.foldlM_cons]
  cases step group.2 a <;> simp

theorem folded_unique {groups groups' : List (κ × σ)}
    (h : List.Forall₂ (Folded same init step rows) keys groups)
    (h' : List.Forall₂ (Folded same init step rows) keys groups') : groups = groups' := by
  induction h generalizing groups' with
  | nil =>
      cases h'
      rfl
  | cons hgroup _ ih =>
      cases h' with
      | cons hgroup' hrest' =>
          rw [ih hrest']
          refine congrArg (· :: _) (Prod.ext (hgroup.1.trans hgroup'.1.symm) ?_)
          exact Except.ok.inj (hgroup.2.symm.trans hgroup'.2)

theorem exists_folded_iff :
    (∃ groups, List.Forall₂ (Folded same init step rows) keys groups) ↔
      ∀ key ∈ keys, ∃ s, (classOf same key rows).foldlM step init = .ok s := by
  rw [Fallible.exists_forall₂_iff]
  refine forall₂_congr fun key _ => ⟨?_, ?_⟩
  · rintro ⟨group, -, hfold⟩
    exact ⟨group.2, hfold⟩
  · rintro ⟨s, hfold⟩
    exact ⟨(key, s), rfl, hfold⟩

/-- A class that folds after one more element folded before it. -/
theorem exists_fold_of_snoc {row : κ × α} {key : κ} {s : σ}
    (h : (classOf same key (rows ++ [row])).foldlM step init = .ok s) :
    ∃ s, (classOf same key rows).foldlM step init = .ok s := by
  rw [classOf_snoc, List.foldlM_append] at h
  cases hfold : (classOf same key rows).foldlM step init with
  | error e =>
      rw [hfold] at h
      cases h
  | ok s' => exact ⟨s', rfl⟩

/-- An element leaves the classes of other keys alone. -/
theorem forall₂_folded_snoc_of_ne (h : ∀ k' ∈ keys, same k' k = false) (groups : List (κ × σ)) :
    List.Forall₂ (Folded same init step (rows ++ [(k, a)])) keys groups ↔
      List.Forall₂ (Folded same init step rows) keys groups := by
  induction keys generalizing groups with
  | nil => simp
  | cons k' keys ih =>
      cases groups with
      | nil => simp
      | cons group groups =>
          rw [List.forall₂_cons, List.forall₂_cons, ih (fun j hj => h j (List.mem_cons_of_mem _ hj)),
            folded_snoc_of_ne (h k' (List.mem_cons_self ..))]

/-- The first element of its class. -/
theorem insert_nil_iff (hsame : Equivalence fun a b => same a b = true) {groups' : List (κ × σ)}
    (hempty : classOf same k rows = []) :
    insert same init step k a [] = .ok groups' ↔
      List.Forall₂ (Folded same init step (rows ++ [(k, a)])) [k] groups' := by
  have hfold : ∀ g : κ × σ, Folded same init step (rows ++ [(k, a)]) k g ↔ g.1 = k ∧ step init a = .ok g.2 := by
    intro g
    rw [Folded, classOf_snoc, if_pos (hsame.refl k), hempty, List.nil_append, List.foldlM_cons]
    cases step init a <;> simp
  rw [insert]
  cases hstep : step init a with
  | error e =>
      refine iff_of_false (fun h => by cases h) fun h => ?_
      cases h with
      | cons hgroup _ =>
          rw [hfold, hstep] at hgroup
          cases hgroup.2
  | ok s =>
      constructor
      · intro h
        obtain rfl := Except.ok.inj h
        exact .cons ((hfold _).mpr ⟨rfl, hstep⟩) .nil
      · intro h
        cases h with
        | cons hgroup hrest =>
            cases hrest
            obtain ⟨hkey, hstate⟩ := (hfold _).mp hgroup
            rw [hstep] at hstate
            obtain rfl := Except.ok.inj hstate
            rw [← hkey]
            rfl

/-- An element of the first class: no other class can have it too. -/
theorem insert_same_iff {s : σ} {groups groups' : List (κ × σ)} (hk : same k' k = true)
    (hothers : ∀ j ∈ keys, same j k = false) (hgroup : Folded same init step rows k' (k', s))
    (hgroups : List.Forall₂ (Folded same init step rows) keys groups) :
    insert same init step k a ((k', s) :: groups) = .ok groups' ↔
      List.Forall₂ (Folded same init step (rows ++ [(k, a)])) (k' :: keys) groups' := by
  rw [insert, if_pos hk]
  cases hstep : step s a with
  | error e =>
      refine iff_of_false (fun h => by cases h) fun h => ?_
      cases h with
      | cons hgroup' _ =>
          have hstate := ((folded_snoc_of_same hk hgroup).mp hgroup').2
          rw [hstep] at hstate
          cases hstate
  | ok s' =>
      constructor
      · intro h
        obtain rfl := Except.ok.inj h
        exact .cons ((folded_snoc_of_same hk hgroup).mpr ⟨rfl, hstep⟩)
          ((forall₂_folded_snoc_of_ne hothers _).mpr hgroups)
      · intro h
        cases h with
        | @cons _ group' _ groups' hgroup' hrest =>
            obtain ⟨hkey, hstate⟩ := (folded_snoc_of_same hk hgroup).mp hgroup'
            rw [hstep] at hstate
            rw [folded_unique hgroups ((forall₂_folded_snoc_of_ne hothers _).mp hrest), ← hkey,
              Except.ok.inj hstate]
            rfl

/-- An element of a later class. -/
theorem insert_other_iff {s : σ} {groups groups' : List (κ × σ)} {keys' : List κ} (hk : same k' k = false)
    (hgroup : Folded same init step rows k' (k', s))
    (hrest : ∀ gs, insert same init step k a groups = .ok gs ↔
      List.Forall₂ (Folded same init step (rows ++ [(k, a)])) keys' gs) :
    insert same init step k a ((k', s) :: groups) = .ok groups' ↔
      List.Forall₂ (Folded same init step (rows ++ [(k, a)])) (k' :: keys') groups' := by
  rw [insert, if_neg (Bool.not_eq_true _ |>.mpr hk)]
  constructor
  · intro h
    cases hinsert : insert same init step k a groups with
    | error e =>
        rw [hinsert] at h
        cases h
    | ok gs =>
        rw [hinsert] at h
        obtain rfl := Except.ok.inj h
        exact .cons ((folded_snoc_of_ne hk _).mpr hgroup) ((hrest gs).mp hinsert)
  · intro h
    cases h with
    | @cons _ group' _ gs hgroup' hgroups' =>
        have hsame := (folded_snoc_of_ne hk _).mp hgroup'
        rw [(hrest gs).mpr hgroups']
        obtain rfl : (k', s) = group' := Prod.ext hsame.1.symm (Except.ok.inj (hgroup.2.symm.trans hsame.2))
        rfl

/-- One element of the pass. -/
theorem insert_iff (hsame : Equivalence fun a b => same a b = true) {groups groups' : List (κ × σ)}
    (hkeys : keys.Pairwise fun k k' => same k k' = false)
    (hgroups : List.Forall₂ (Folded same init step rows) keys groups)
    (hnew : (∀ k' ∈ keys, same k' k = false) → classOf same k rows = []) :
    insert same init step k a groups = .ok groups' ↔
      List.Forall₂ (Folded same init step (rows ++ [(k, a)]))
        (if keys.any (fun k' => same k' k) then keys else keys ++ [k]) groups' := by
  induction hgroups generalizing groups' with
  | nil =>
      rw [List.any_nil, if_neg Bool.false_ne_true, List.nil_append]
      exact insert_nil_iff hsame (hnew (List.forall_mem_nil _))
  | @cons k' group keys groups hgroup hgroups ih =>
      obtain ⟨hhead, htail⟩ := List.pairwise_cons.mp hkeys
      obtain ⟨key, s⟩ := group
      obtain rfl : key = k' := hgroup.1
      rw [List.any_cons]
      cases hk : same key k with
      | true =>
          have hothers : ∀ j ∈ keys, same j k = false := by
            intro j hj
            by_contra hjk
            rw [Bool.not_eq_false] at hjk
            have hkj : same key j = true := hsame.trans hk (hsame.symm hjk)
            rw [hhead j hj] at hkj
            cases hkj
          rw [Bool.true_or, if_pos rfl]
          exact insert_same_iff hk hothers hgroup hgroups
      | false =>
          have hcons : (if (keys.any fun k' => same k' k) = true then key :: keys else key :: keys ++ [k]) =
              key :: if (keys.any fun k' => same k' k) = true then keys else keys ++ [k] := by
            split <;> rfl
          rw [Bool.false_or, hcons]
          exact insert_other_iff hk hgroup fun gs =>
            ih htail fun hall => hnew (List.forall_mem_cons.mpr ⟨hk, hall⟩)

/-- The pass ends exactly if folding each class ends, and with the states that this gives. -/
theorem pass_iff (hsame : Equivalence fun a b => same a b = true) {groups : List (κ × σ)} :
    pass same init step [] rows = .ok groups ↔
      List.Forall₂ (Folded same init step rows) (firstKeys same (rows.map Prod.fst)) groups := by
  induction rows using List.reverseRecOn generalizing groups with
  | nil =>
      rw [pass, List.foldlM_nil, List.map_nil, firstKeys, List.forall₂_nil_left_iff]
      exact ⟨fun h => (Except.ok.inj h).symm, fun h => congrArg _ h.symm⟩
  | append_singleton rows row ih =>
      obtain ⟨k, a⟩ := row
      have hpass : pass same init step [] (rows ++ [(k, a)]) =
          pass same init step [] rows >>= insert same init step k a := by
        rw [pass, List.foldlM_append]
        refine congrArg _ (funext fun groups => ?_)
        rw [List.foldlM_cons]
        cases insert same init step k a groups <;> rfl
      rw [hpass, List.map_append, List.map_singleton, firstKeys_snoc, ← any_firstKeys hsame]
      have hnew : (∀ k' ∈ firstKeys same (rows.map Prod.fst), same k' k = false) →
          classOf same k rows = [] := by
        intro hall
        rw [classOf, List.map_eq_nil_iff, List.filter_eq_nil_iff]
        intro row hrow hk
        obtain ⟨k', hk', hsame'⟩ := exists_same_firstKeys hsame
          (List.mem_map_of_mem (f := Prod.fst) hrow)
        have hkk : same k' k = true := hsame.trans hsame' (hsame.symm hk)
        rw [hall k' hk'] at hkk
        cases hkk
      cases hrun : pass same init step [] rows with
      | error e =>
          -- the classes would have folded without the last element too
          refine iff_of_false (fun h => by cases h) fun h => ?_
          have hfolds := exists_folded_iff.mp ⟨_, h⟩
          obtain ⟨before, hbefore⟩ : ∃ before, List.Forall₂ (Folded same init step rows)
              (firstKeys same (rows.map Prod.fst)) before := by
            refine exists_folded_iff.mpr fun key hkey => ?_
            obtain ⟨s, hs⟩ := hfolds key (by split <;> simp [hkey])
            exact exists_fold_of_snoc hs
          rw [ih.mpr hbefore] at hrun
          cases hrun
      | ok before =>
          exact insert_iff hsame (firstKeys_pairwise same _) (ih.mp hrun) hnew

/-- A pass that starts with a group that every element belongs to. -/
theorem pass_single_iff {s : σ} {groups : List (κ × σ)} (hrows : ∀ row ∈ rows, same k row.1 = true) :
    pass same init step [(k, s)] rows = .ok groups ↔
      ∃ s', (rows.map Prod.snd).foldlM step s = .ok s' ∧ groups = [(k, s')] := by
  induction rows generalizing s with
  | nil =>
      constructor
      · exact fun h => ⟨s, rfl, (Except.ok.inj h).symm⟩
      · rintro ⟨s', h, rfl⟩
        rw [← Except.ok.inj h]
        rfl
  | cons row rows ih =>
      obtain ⟨hrow, hrows⟩ := List.forall_mem_cons.mp hrows
      have hinsert : insert same init step row.1 row.2 [(k, s)] =
          (step s row.2 >>= fun s' => .ok [(k, s')]) := if_pos hrow
      rw [pass, List.foldlM_cons, hinsert, List.map_cons, List.foldlM_cons]
      cases step s row.2 with
      | error e => exact iff_of_false (fun h => nomatch h) fun ⟨_, h, _⟩ => nomatch h
      | ok s₁ => exact ih hrows

end Pass

end GroupFold
