/-
  Lib/Dict.lean --- insertion-ordered dictionaries.

  An association list with the newest key last.  Assigning to an existing key
  keeps its place, as in Python's `dict`.
-/
import Mathlib.Data.List.Nodup

set_option autoImplicit false

/-- A dictionary in insertion order. -/
abbrev Dict (κ α : Type) : Type := List (κ × α)

namespace Dict

variable {κ α : Type} [DecidableEq κ]

/-- Drop an entry. -/
def erase (d : Dict κ α) (k : κ) : Dict κ α := d.filter fun e => e.1 ≠ k

/-- Change an entry in place. -/
def modify (d : Dict κ α) (k : κ) (g : α → α) : Dict κ α :=
  d.map fun e => if e.1 = k then (e.1, g e.2) else e

/-- `move_to_end`, with a new value. -/
def moveToEnd (d : Dict κ α) (k : κ) (a : α) : Dict κ α := d.erase k ++ [(k, a)]

/-- `d[k] = a`: an existing key keeps its place. -/
def put (d : Dict κ α) (k : κ) (a : α) : Dict κ α :=
  match d.lookup k with
  | some _ => d.modify k fun _ => a
  | none => d ++ [(k, a)]

theorem lookup_cons_ite (d : Dict κ α) (k j : κ) (a : α) :
    List.lookup j ((k, a) :: d) = if j = k then some a else d.lookup j := by
  rw [List.lookup_cons]
  by_cases hj : j = k
  · rw [if_pos hj, beq_iff_eq.mpr hj]
  · rw [if_neg hj, beq_eq_false_iff_ne.mpr hj]

theorem lookup_erase (d : Dict κ α) (k j : κ) :
    (d.erase k).lookup j = if j = k then none else d.lookup j := by
  induction d with
  | nil => simp [erase]
  | cons e d ih =>
      obtain ⟨i, a⟩ := e
      unfold erase at ih ⊢
      by_cases hi : i = k
      · rw [List.filter_cons_of_neg (by simp [hi]), ih, lookup_cons_ite]
        split
        · rfl
        · rename_i hj
          rw [if_neg (hi ▸ hj)]
      · rw [List.filter_cons_of_pos (by simp [hi]), lookup_cons_ite, lookup_cons_ite, ih]
        by_cases hj : j = k
        · rw [if_pos hj, if_pos hj, if_neg (hj ▸ Ne.symm hi)]
        · rw [if_neg hj, if_neg hj]

theorem lookup_modify (d : Dict κ α) (k j : κ) (g : α → α) :
    (d.modify k g).lookup j = if j = k then (d.lookup j).map g else d.lookup j := by
  induction d with
  | nil => simp [modify]
  | cons e d ih =>
      obtain ⟨i, a⟩ := e
      unfold modify at ih ⊢
      rw [List.map_cons, lookup_cons_ite]
      by_cases hi : i = k
      · rw [if_pos hi, lookup_cons_ite, ih]
        by_cases hj : j = i
        · rw [if_pos hj, if_pos hj, if_pos (hj.trans hi), Option.map_some]
        · rw [if_neg hj, if_neg hj]
      · rw [if_neg hi, lookup_cons_ite, ih]
        by_cases hj : j = i
        · rw [if_pos hj, if_pos hj, if_neg (hj ▸ hi)]
        · rw [if_neg hj, if_neg hj]

theorem mem_of_lookup {d : Dict κ α} {k : κ} {a : α} (h : d.lookup k = some a) :
    (k, a) ∈ d := by
  induction d with
  | nil => cases h
  | cons e d ih =>
      rw [lookup_cons_ite] at h
      split at h
      · rename_i hk
        obtain rfl := Option.some.inj h
        rw [hk]
        exact List.mem_cons_self ..
      · exact List.mem_cons_of_mem _ (ih h)

theorem key_mem_of_lookup {d : Dict κ α} {k : κ} {a : α} (h : d.lookup k = some a) :
    k ∈ d.map Prod.fst :=
  List.mem_map.mpr ⟨_, mem_of_lookup h, rfl⟩

theorem lookup_isSome_of_mem {d : Dict κ α} {k : κ} {a : α} (h : (k, a) ∈ d) :
    ∃ b, d.lookup k = some b := by
  induction d with
  | nil => cases h
  | cons e d ih =>
      rw [lookup_cons_ite]
      split
      · exact ⟨_, rfl⟩
      · rename_i hne
        rcases List.mem_cons.mp h with hhead | htail
        · exact absurd (congrArg Prod.fst hhead) hne
        · exact ih htail

theorem lookup_of_mem {d : Dict κ α} (hd : (d.map Prod.fst).Nodup) {k : κ} {a : α}
    (h : (k, a) ∈ d) : d.lookup k = some a := by
  obtain ⟨b, hb⟩ := lookup_isSome_of_mem h
  have := List.inj_on_of_nodup_map hd h (mem_of_lookup hb) rfl
  rw [hb, (Prod.mk.inj this).2]

theorem map_fst_modify (d : Dict κ α) (k : κ) (g : α → α) :
    (d.modify k g).map Prod.fst = d.map Prod.fst := by
  rw [modify, List.map_map]
  refine List.map_congr_left fun e _ => ?_
  simp only [Function.comp_apply]
  split <;> rfl

theorem nodup_append_single {d : Dict κ α} (hd : (d.map Prod.fst).Nodup) {k : κ}
    (hk : d.lookup k = none) (a : α) : ((d ++ [(k, a)]).map Prod.fst).Nodup := by
  rw [List.map_append, List.nodup_append]
  refine ⟨hd, List.nodup_singleton _, ?_⟩
  rintro x hx y hy rfl
  obtain ⟨⟨i, b⟩, hmem, rfl⟩ := List.mem_map.mp hx
  obtain rfl := List.mem_singleton.mp hy
  obtain ⟨b', hb'⟩ := lookup_isSome_of_mem hmem
  rw [hk] at hb'
  cases hb'

theorem nodup_put {d : Dict κ α} (hd : (d.map Prod.fst).Nodup) (k : κ) (a : α) :
    ((d.put k a).map Prod.fst).Nodup := by
  unfold put
  split
  · rwa [map_fst_modify]
  · rename_i hnone
    exact nodup_append_single hd hnone a

theorem nodup_erase {d : Dict κ α} (hd : (d.map Prod.fst).Nodup) (k : κ) :
    ((d.erase k).map Prod.fst).Nodup :=
  hd.sublist (List.filter_sublist.map Prod.fst)

theorem mem_erase {d : Dict κ α} {k j : κ} {a : α} : (j, a) ∈ d.erase k ↔ j ≠ k ∧ (j, a) ∈ d := by
  simp [erase, and_comm]

theorem length_erase {d : Dict κ α} (hd : (d.map Prod.fst).Nodup) {k : κ} {a : α}
    (h : d.lookup k = some a) : (d.erase k).length + 1 = d.length := by
  induction d with
  | nil => cases h
  | cons e d ih =>
      obtain ⟨hnew, htail⟩ := List.nodup_cons.mp hd
      obtain ⟨i, b⟩ := e
      unfold erase at ih ⊢
      by_cases hi : i = k
      · subst hi
        have hrest : d.filter (fun e => e.1 ≠ i) = d := List.filter_eq_self.mpr fun e he => by
          rw [decide_eq_true_eq]
          rintro rfl
          exact hnew (List.mem_map.mpr ⟨e, he, rfl⟩)
        rw [List.filter_cons_of_neg (by simp), hrest, List.length_cons]
      · rw [lookup_cons_ite, if_neg (Ne.symm hi)] at h
        rw [List.filter_cons_of_pos (by simp [hi]), List.length_cons, List.length_cons, ih htail h]

theorem nodup_moveToEnd {d : Dict κ α} (hd : (d.map Prod.fst).Nodup) (k : κ) (a : α) :
    ((d.moveToEnd k a).map Prod.fst).Nodup := by
  refine nodup_append_single (nodup_erase hd k) ?_ a
  rw [lookup_erase, if_pos rfl]

/-- Assigning to a key leaves the other entries alone. -/
theorem mem_put_of_ne {d : Dict κ α} {k j : κ} {a b : α} (hj : j ≠ k) :
    (j, b) ∈ d.put k a ↔ (j, b) ∈ d := by
  unfold put
  split
  · simp only [modify, List.mem_map, Prod.exists]
    constructor
    · rintro ⟨i, c, hmem, heq⟩
      split at heq
      · rename_i hi
        exact absurd ((congrArg Prod.fst heq).symm.trans hi) hj
      · rwa [heq] at hmem
    · intro hmem
      exact ⟨j, b, hmem, if_neg hj⟩
  · simp [hj]

theorem eq_of_mem_put {d : Dict κ α} {k : κ} {a b : α} (h : (k, b) ∈ d.put k a) : b = a := by
  unfold put at h
  split at h
  · simp only [modify, List.mem_map, Prod.exists] at h
    obtain ⟨i, c, -, heq⟩ := h
    split at heq
    · exact (congrArg Prod.snd heq).symm
    · rename_i hi
      exact absurd (congrArg Prod.fst heq) hi
  · rename_i hnone
    rcases List.mem_append.mp h with hold | hnew
    · obtain ⟨c, hc⟩ := lookup_isSome_of_mem hold
      rw [hnone] at hc
      cases hc
    · exact congrArg Prod.snd (List.mem_singleton.mp hnew)

theorem lookup_append_single (d : Dict κ α) (k j : κ) (a : α) :
    (d ++ [(k, a)]).lookup j = (d.lookup j).or (if j = k then some a else none) := by
  rw [List.lookup_append, lookup_cons_ite, List.lookup_nil]

theorem lookup_moveToEnd (d : Dict κ α) (k j : κ) (a : α) :
    (d.moveToEnd k a).lookup j = if j = k then some a else d.lookup j := by
  rw [moveToEnd, lookup_append_single, lookup_erase]
  by_cases hj : j = k <;> simp [hj]

/-- A new key goes to the end. -/
theorem put_of_lookup {d : Dict κ α} {k : κ} (h : d.lookup k = none) (a : α) : d.put k a = d ++ [(k, a)] := by
  unfold put
  rw [h]

theorem lookup_put (d : Dict κ α) (k j : κ) (a : α) :
    (d.put k a).lookup j = if j = k then some a else d.lookup j := by
  unfold put
  split
  · rename_i b hb
    rw [lookup_modify]
    split
    · rename_i hj
      rw [hj, hb, Option.map_some]
    · rfl
  · rename_i hnone
    rw [lookup_append_single]
    by_cases hj : j = k
    · simp [hj, hnone]
    · simp [hj]

end Dict
