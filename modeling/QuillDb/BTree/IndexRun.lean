/-
  BTree/IndexRun.lean --- runs of calls on an index tree.

  Source: `quilldb/btree/index.py`, `quilldb/btree/validate.py`.

  `insert` does not look for an equal entry (`find_conflict` is the caller's check),
  so the order around a divider is strict only among distinct entries; and keys
  that cannot be compared, a NaN or one with fewer columns, are in no order at all.
-/
import QuillDb.BTree.IndexDelete

set_option autoImplicit false

namespace QuillDb

open Prog PageStore PageTree

/-- A call on an index tree. -/
inductive IndexCall where
  | insert (values : List Value) (rowid : Int)
  | delete (values : List Value) (rowid : Int)

namespace IndexCall

def key : IndexCall → List Value
  | insert values rowid => values ++ [.int rowid]
  | delete values rowid => values ++ [.int rowid]

/-- The call; an insertion returns nothing, which is `true` here. -/
def run (root : Nat) : IndexCall → StoreM Bool
  | insert values rowid => do
      IndexBTree.insert root values rowid
      return true
  | delete values rowid => IndexBTree.delete root values rowid

/-- The entry that a call adds, or the one it removes; among keys that can be compared
it finds the entry if there is one. -/
def Changes (call : IndexCall) (comparable : Prop) (found : Bool) (es es' : List Entry) : Prop :=
  match call with
  | insert .. => ∃ xs e ys, es = xs ++ ys ∧ es' = xs ++ e :: ys ∧ e.key = call.key
  | delete .. =>
      found = true ∧ (∃ xs e ys, es = xs ++ e :: ys ∧ es' = xs ++ ys ∧
        compareKeys e.key call.key = .eq) ∨
      found = false ∧ es' = es ∧ (comparable → ∀ e ∈ es, compareKeys e.key call.key ≠ .eq)

end IndexCall

/-! ## Well-formed trees -/

/-- Around each divider the keys left of it are in the relation `lo` to it and those
right of it in the relation `hi`. -/
def Separated (lo hi : Ordering → Prop) {H : Nat} (T : IndexTree H) : Prop :=
  ∀ {h : Nat} (up : Ctx Entry Entry (h + 1)) (f : Frame Entry (IndexTree h))
    (left : IndexTree h) (d : Entry) (right : IndexTree h),
    up.plug (.node ((TreeFormat.split f d right).fill left)) = ⟨H, T⟩ →
      (∀ e ∈ left.entries, lo (compareKeys e.key d.key)) ∧
        ∀ e ∈ right.entries, hi (compareKeys e.key d.key)

/-- The pages of `T` are those of the store, each is reached once, the root is at
`root`, and no page but that of an empty root leaf is without cells.  The leaves of
a tree lie at one depth. -/
structure IndexShape (s : PageStore) (root : Nat) {H : Nat} (T : IndexTree H) : Prop where
  rootId : T.id = root
  stored : ∀ p ∈ T.image, s.pages p.1 = p.2
  once : (T.image.map Prod.fst).Nodup
  filled : ∀ p ∈ T.image, p.2.HasCells ∨ p = (root, .body (.indexLeaf []))

/-- What holds of an index tree between calls; the keys can be compared if those of
all calls can. -/
structure IndexWellFormed (comparable : Prop) (s : PageStore) (root : Nat) {H : Nat}
    (T : IndexTree H) : Prop extends IndexShape s root T where
  separated : comparable → Separated (· ≠ .gt) (· ≠ .lt) T
  strictly : comparable → (T.entries.Pairwise fun a b => compareKeys a.key b.key ≠ .eq) →
    Separated (· = .lt) (· = .gt) T

section Calls

variable {s s' : PageStore} {root n : Nat} {others : Image} {H : Nat} {T : IndexTree H}

/-- The entries around a divider, in order. -/
theorem entries_divider {h : Nat} {up : Ctx Entry Entry (h + 1)} {f : Frame Entry (IndexTree h)}
    {left right : IndexTree h} {d : Entry}
    (hplug : up.plug (.node ((TreeFormat.split f d right).fill left)) = ⟨H, T⟩) :
    T.entries = up.entriesBefore ++ f.entriesBefore ++ left.entries ++
      d :: (right.entries ++ f.entriesAfter ++ up.entriesAfter) := by
  have hentries := Ctx.walk_of_plug hplug (fun items => items) fun e => [e]
  have hnode := entries_fill (TreeFormat.split f d right) left
  have hbefore : (TreeFormat.split f d right).entriesBefore = f.entriesBefore := rfl
  rw [entriesAfter_split, hbefore] at hnode
  refine hentries.trans ?_
  show up.entriesBefore ++ LevelTree.entries _ ++ up.entriesAfter = _
  rw [hnode]
  simp only [List.append_assoc, List.cons_append]

/-- Keys of `n` columns without a NaN compare like their places. -/
theorem compareKeys_places {a b : List Value} (ha : Comparable n a) (hb : Comparable n b) :
    (compareKeys a b ≠ .gt ↔ keyPlace a ≤ keyPlace b) ∧
      (compareKeys a b ≠ .lt ↔ keyPlace b ≤ keyPlace a) ∧
        (compareKeys a b = .eq ↔ keyPlace a = keyPlace b) := by
  have hcases := compareKeys_cases ha hb
  refine ⟨compareKeys_le ha hb, ?_, compareKeys_eq ha hb⟩
  cases hcmp : compareKeys a b with
  | lt =>
      rw [hcmp] at hcases
      exact iff_of_false (fun h => h rfl) (not_le.mpr hcases)
  | eq =>
      rw [hcmp] at hcases
      exact iff_of_true (by decide) hcases.ge
  | gt =>
      rw [hcmp] at hcases
      exact iff_of_true (by decide) hcases.le

/-- The entries of a subtree to the left of a divider lie before it, those of the
subtree to its right behind it. -/
theorem pairwise_divider {R : Entry → Entry → Prop} (hordered : T.entries.Pairwise R) {h : Nat}
    {up : Ctx Entry Entry (h + 1)} {f : Frame Entry (IndexTree h)} {left right : IndexTree h}
    {d : Entry} (hplug : up.plug (.node ((TreeFormat.split f d right).fill left)) = ⟨H, T⟩) :
    (∀ e ∈ left.entries, R e d) ∧ ∀ e ∈ right.entries, R d e := by
  rw [entries_divider hplug] at hordered
  obtain ⟨-, hright, hcross⟩ := List.pairwise_append.mp hordered
  refine ⟨fun e he => ?_, fun e he => ?_⟩
  · exact hcross e (List.mem_append_right _ he) d (List.mem_cons_self ..)
  · refine (List.pairwise_cons.mp hright).1 e ?_
    exact List.mem_append_left _ (List.mem_append_left _ he)

theorem mem_divider {h : Nat} {up : Ctx Entry Entry (h + 1)} {f : Frame Entry (IndexTree h)}
    {left right : IndexTree h} {d : Entry}
    (hplug : up.plug (.node ((TreeFormat.split f d right).fill left)) = ⟨H, T⟩) :
    (∀ e ∈ left.entries, e ∈ T.entries) ∧ d ∈ T.entries ∧ ∀ e ∈ right.entries, e ∈ T.entries := by
  rw [entries_divider hplug]
  refine ⟨fun e he => ?_, ?_, fun e he => ?_⟩
  · exact List.mem_append_left _ (List.mem_append_right _ he)
  · exact List.mem_append_right _ (List.mem_cons_self ..)
  · refine List.mem_append_right _ (List.mem_cons_of_mem _ ?_)
    exact List.mem_append_left _ (List.mem_append_left _ he)

theorem IndexStored.hasCells (ht : IndexStored s root others T) :
    ∀ p ∈ T.image, p.2.HasCells ∨ p = (root, .body (.indexLeaf [])) := by
  intro p hp
  rcases ht.filled with rfl | hcelled
  · obtain ⟨l, hl⟩ := T.exists_leaf
    have hroot : l.id = root := by
      rw [← ht.root, hl, LevelTree.id_leaf]
    rw [hl] at hp
    rcases List.mem_cons.mp hp with rfl | hp
    · by_cases hitems : l.items = []
      · refine .inr ?_
        show (l.id, PageContent.body (.indexLeaf (l.items.map Entry.cell))) = _
        rw [hroot, hitems, List.map_nil]
      · exact .inl (leaf_hasCells hitems)
    · exact .inl (celled_extra l.items p hp)
  · exact .inl (hcelled p hp)

theorem Sorted.separated (hsorted : Sorted n T.entries) : Separated (· ≠ .gt) (· ≠ .lt) T := by
  intro h up f left d right hplug
  obtain ⟨hleft, hd, hright⟩ := mem_divider hplug
  obtain ⟨hbefore, hbehind⟩ := pairwise_divider hsorted.ordered hplug
  have hcomparable := hsorted.comparable
  refine ⟨fun e he => ?_, fun e he => ?_⟩
  · exact (compareKeys_places (hcomparable e (hleft e he)) (hcomparable d hd)).1.mpr (hbefore e he)
  · exact (compareKeys_places (hcomparable e (hright e he)) (hcomparable d hd)).2.1.mpr
      (hbehind e he)

theorem Sorted.strictly (hsorted : Sorted n T.entries)
    (hdistinct : T.entries.Pairwise fun a b => compareKeys a.key b.key ≠ .eq) :
    Separated (· = .lt) (· = .gt) T := by
  intro h up f left d right hplug
  obtain ⟨hleft, hd, hright⟩ := mem_divider hplug
  obtain ⟨hbefore, hbehind⟩ := hsorted.separated up f left d right hplug
  obtain ⟨hneLeft, hneRight⟩ := pairwise_divider hdistinct hplug
  have hcomparable := hsorted.comparable
  refine ⟨fun e he => ?_, fun e he => ?_⟩
  · have hle := hbefore e he
    have hne := hneLeft e he
    cases hcmp : compareKeys e.key d.key with
    | lt => rfl
    | eq => exact absurd hcmp hne
    | gt => exact absurd hcmp hle
  · have hge := hbehind e he
    have hne := hneRight e he
    have hed := (compareKeys_places (hcomparable e (hright e he)) (hcomparable d hd)).2.2
    have hde := (compareKeys_places (hcomparable d hd) (hcomparable e (hright e he))).2.2
    cases hcmp : compareKeys e.key d.key with
    | lt => exact absurd hcmp hge
    | eq => exact absurd (hde.mpr (hed.mp hcmp).symm) hne
    | gt => rfl

/-- The entries of a tree that holds keys of some calls are sorted if those can be compared. -/
def SortedIf (comparable : Nat → Prop) (es : List Entry) : Prop := ∀ n, comparable n → Sorted n es

variable {comparable : Nat → Prop}

theorem IndexStored.wellFormed (ht : IndexStored s root others T)
    (hsorted : SortedIf comparable T.entries) :
    IndexWellFormed (∃ n, comparable n) s root T where
  rootId := ht.root
  stored := fun p hp => ht.live.holds p (List.mem_append_left _ hp)
  once := ht.live.forget_right.ids_nodup
  filled := ht.hasCells
  separated := fun ⟨n, hn⟩ => (hsorted n hn).separated
  strictly := fun ⟨n, hn⟩ => (hsorted n hn).strictly

/-- One call that returns. -/
theorem IndexStored.run (ht : IndexStored s root others T) (hsorted : SortedIf comparable T.entries)
    {call : IndexCall} (hk : ∀ n, comparable n → Comparable n call.key) {found : Bool}
    (hrun : call.run root s = (.ok found, s')) :
    ∃ (H' : Nat) (T' : IndexTree H'), IndexStored s' root others T' ∧
      SortedIf comparable T'.entries ∧ call.Changes (∃ n, comparable n) found T.entries T'.entries := by
  cases call with
  | insert values rowid =>
      have hpost : Post (IndexCall.run root (.insert values rowid)) s
          (fun _ s' => IndexInserted root others T (values ++ [.int rowid]) s') fun _ _ => True :=
        (insert_index ht values rowid).bind (fun _ _ hs' => hs') fun _ _ _ => trivial
      rw [Post, hrun] at hpost
      obtain ⟨H', T', e, xs, ys, hT', hkey, hold, hnew, hkeep⟩ := hpost
      refine ⟨H', T', hT', fun n hn => hkeep n (hk n hn) (hsorted n hn), xs, e, ys, hold, hnew, hkey⟩
  | delete values rowid =>
      have hpost := delete_index ht values rowid
      have hrun : IndexBTree.delete root values rowid s = (.ok found, s') := hrun
      rw [Post, hrun] at hpost
      obtain ⟨-, ⟨rfl, rfl, habsent⟩ | ⟨rfl, xs, e, ys, hold, hkey, hholds⟩⟩ := hpost
      · refine ⟨H, T, ht, hsorted, .inr ⟨rfl, rfl, ?_⟩⟩
        rintro ⟨n, hn⟩ e he heq
        have he' := (hsorted n hn).comparable e he
        exact habsent n (hk n hn) (hsorted n hn) e he ((compareKeys_eq he' (hk n hn)).mp heq)
      · obtain ⟨H', T', hroot, hnew, hfilled, hsmall, hlive⟩ := hholds
        have hsub : T'.entries.Sublist T.entries := by
          rw [hold, hnew]
          exact (List.sublist_cons_self e ys).append_left xs
        exact ⟨H', T', ⟨hroot, hfilled, hsmall, hlive⟩, fun n hn => (hsorted n hn).sublist hsub,
          .inl ⟨rfl, xs, e, ys, hold, hnew, hkey⟩⟩

end Calls

/-! ## Runs -/

/-- Calls one after another, each of which must return. -/
def runIndexCalls (root : Nat) : List IndexCall → StoreM (List Bool)
  | [] => return []
  | call :: calls => do
      let found ← call.run root
      let rest ← runIndexCalls root calls
      return found :: rest

/-- A run over well-formed trees, in which each call changes the entries as it should. -/
inductive IndexTrace (comparable : Prop) (root : Nat) : PageStore → List Entry → List IndexCall →
    PageStore → List Entry → Prop
  | nil {s : PageStore} {H : Nat} {T : IndexTree H} (hT : IndexWellFormed comparable s root T) :
      IndexTrace comparable root s T.entries [] s T.entries
  | cons {s s₁ s' : PageStore} {H : Nat} {T : IndexTree H} {call : IndexCall}
      {calls : List IndexCall} {found : Bool} {es₁ es' : List Entry}
      (hT : IndexWellFormed comparable s root T) (hrun : call.run root s = (.ok found, s₁))
      (hchanges : call.Changes comparable found T.entries es₁)
      (hrest : IndexTrace comparable root s₁ es₁ calls s' es') :
      IndexTrace comparable root s T.entries (call :: calls) s' es'

theorem IndexStored.runCalls {s s' : PageStore} {root : Nat} {others : Image} {H : Nat}
    {T : IndexTree H} {comparable : Nat → Prop} (ht : IndexStored s root others T)
    (hsorted : SortedIf comparable T.entries) {calls : List IndexCall}
    (hkeys : ∀ n, comparable n → ∀ call ∈ calls, Comparable n call.key) {answers : List Bool}
    (hrun : runIndexCalls root calls s = (.ok answers, s')) :
    ∃ es', IndexTrace (∃ n, comparable n) root s T.entries calls s' es' := by
  induction calls generalizing s H T answers with
  | nil =>
      obtain rfl : s = s' := congrArg Prod.snd hrun
      exact ⟨_, .nil (ht.wellFormed hsorted)⟩
  | cons call calls ih =>
      rw [runIndexCalls] at hrun
      obtain ⟨found, s₁, hcall, hrun⟩ := exists_of_bind_ok hrun
      obtain ⟨rest, s₂, hrest, hrun⟩ := exists_of_bind_ok hrun
      obtain rfl : s₂ = s' := congrArg Prod.snd hrun
      obtain ⟨H₁, T₁, ht₁, hsorted₁, hchanges⟩ := ht.run hsorted
        (fun n hn => hkeys n hn call (List.mem_cons_self ..)) hcall
      obtain ⟨es', htrace⟩ := ih ht₁ hsorted₁
        (fun n hn c hc => hkeys n hn c (List.mem_cons_of_mem _ hc)) hrest
      exact ⟨es', .cons (ht.wellFormed hsorted) hcall hchanges htrace⟩

/-- Where calls that returned leave a stored tree. -/
theorem IndexStored.afterCalls {s s' : PageStore} {root : Nat} {others : Image} {H : Nat}
    {T : IndexTree H} {comparable : Nat → Prop} (ht : IndexStored s root others T)
    (hsorted : SortedIf comparable T.entries) {calls : List IndexCall}
    (hkeys : ∀ n, comparable n → ∀ call ∈ calls, Comparable n call.key) {answers : List Bool}
    (hrun : runIndexCalls root calls s = (.ok answers, s')) :
    ∃ (H' : Nat) (T' : IndexTree H'), IndexStored s' root others T' ∧
      SortedIf comparable T'.entries := by
  induction calls generalizing s H T answers with
  | nil =>
      obtain rfl : s = s' := congrArg Prod.snd hrun
      exact ⟨H, T, ht, hsorted⟩
  | cons call calls ih =>
      rw [runIndexCalls] at hrun
      obtain ⟨found, s₁, hcall, hrun⟩ := exists_of_bind_ok hrun
      obtain ⟨rest, s₂, hrest, hrun⟩ := exists_of_bind_ok hrun
      obtain rfl : s₂ = s' := congrArg Prod.snd hrun
      obtain ⟨H₁, T₁, ht₁, hsorted₁, -⟩ := ht.run hsorted
        (fun n hn => hkeys n hn call (List.mem_cons_self ..)) hcall
      exact ih ht₁ hsorted₁ (fun n hn c hc => hkeys n hn c (List.mem_cons_of_mem _ hc)) hrest

/-- An empty leaf. -/
theorem indexStored_empty {s : PageStore} {root : Nat} {others : Image} (hroot : root < 2 ^ 32)
    (hlive : Live s ((root, .body (.indexLeaf [])) :: others)) :
    IndexStored s root others (.leaf ⟨root, []⟩) :=
  ⟨rfl, .inl rfl, fun _ hi => List.mem_singleton.mp hi ▸ hroot, hlive⟩

/-- Whatever is called on an index tree that starts as an empty leaf, if each call
returns, the trees in between are well formed and change by the entry of the call. -/
theorem index_tree_wellFormed (s : PageStore) (root : Nat) (others : Image) (hroot : root < 2 ^ 32)
    (hlive : Live s ((root, .body (.indexLeaf [])) :: others)) (calls : List IndexCall)
    (answers : List Bool) (s' : PageStore) (hrun : runIndexCalls root calls s = (.ok answers, s')) :
    ∃ es', IndexTrace (∃ n, ∀ call ∈ calls, Comparable n call.key) root s [] calls s' es' :=
  (indexStored_empty hroot hlive).runCalls
    (fun _ _ => ⟨fun _ he => (List.not_mem_nil he).elim, List.Pairwise.nil⟩) (fun _ h => h) hrun

/-- A database of two pages, the second of them an empty index. -/
def emptyIndex : PageStore where
  pageCount := 2
  freelistTrunk := 0
  freelistCount := 0
  pages id := if id = 2 then .body (.indexLeaf []) else .link 0 []

theorem emptyIndex_live : Live emptyIndex [(2, .body (.indexLeaf []))] where
  free := ⟨[], [], rfl, Nat.two_pow_pos 32, List.Perm.refl _⟩
  holds := by
    intro p hp
    rw [List.mem_singleton.mp hp]
    rfl
  fits := by
    intro p hp
    have hempty : (PageBody.indexLeaf []).usedBytes ≤ pageSize := by decide
    rw [List.mem_singleton.mp hp]
    exact hempty

/-- `size` bytes. -/
def filler (size : Nat) (byte : UInt8) : Value := .blob (List.replicate size byte)

def longKeys (ns : List Nat) : List IndexCall := ns.map fun n => .insert [.int n, filler 985 7] n

/-- Of two leaves of long keys, the first is down to one entry. -/
def lastInLeaf : List IndexCall :=
  longKeys [1, 2, 3, 4, 5] ++ [1, 2].map fun n : Nat => .delete [.int n, filler 985 7] n

/-- Two leaves merged again. -/
def mergedLeaves : List IndexCall := lastInLeaf ++ [.delete [.int 3, filler 985 7] 3]

theorem index_tree_wellFormed_keys : ∃ es', IndexTrace
    (∃ n, ∀ call ∈ mergedLeaves, Comparable n call.key) 2 emptyIndex [] mergedLeaves
    ((runIndexCalls 2 mergedLeaves).exec emptyIndex) es' :=
  index_tree_wellFormed emptyIndex 2 [] (by decide) emptyIndex_live mergedLeaves
    (List.replicate 8 true) _ (apply_eq (by decide +kernel))

/-! ## Keys in no strict order -/

/-- The key of a cell that is whole on its page. -/
def localKey (p : Payload) : Option (List Value) :=
  if p.overflow = 0 then (decodeRecord p.localPart 0).toOption else none

/-- The keys of the first divider of the root page and of the first entry below it. -/
def firstKeys (s : PageStore) (root : Nat) : Option (List Value × List Value) :=
  match s.pages root with
  | .body (.indexInterior (divider :: _) _) =>
      match s.pages divider.child with
      | .body (.indexLeaf (below :: _)) => do
          let separator ← localKey divider.key
          let key ← localKey below
          return (separator, key)
      | _ => none
  | _ => none

theorem localKey_cell {e : Entry} {key : List Value} (h : localKey e.cell = some key) :
    key = e.key := by
  unfold localKey at h
  split at h
  · rename_i hzero
    have hlocal : e.cell.localPart = e.stored.data := e.stored.localPart_eq hzero
    rw [hlocal, e.decodes] at h
    exact (Option.some.inj h).symm
  · cases h

theorem stored_body {s : PageStore} {H : Nat} {T : IndexTree H}
    (hstored : ∀ p ∈ T.image, s.pages p.1 = p.2) : s.pages T.id = .body T.body := by
  refine hstored (T.id, .body T.body) ?_
  rw [IndexTree.image_eq]
  exact List.mem_cons_self ..

/-- The first divider of a node, between its first child and what follows it. -/
theorem node_eq_fill {h : Nat} (i : Nat) (t : IndexTree h) (d : Entry)
    (rest : List (IndexTree h × Entry)) (last : IndexTree h) :
    (⟨i, (t, d) :: rest, last⟩ : Node Entry (IndexTree h)) =
      (TreeFormat.split ⟨i, [], (unlink rest last).2⟩ d (unlink rest last).1).fill t := by
  have hlink := linkPost_unlink rest last
  simp only [TreeFormat.split, Frame.fill, linkPost, hlink, List.nil_append]

/-- Whatever separates a stored tree does so for the first keys. -/
theorem Separated.first {s : PageStore} {root H : Nat} {T : IndexTree H} {lo hi : Ordering → Prop}
    (hsep : Separated lo hi T) (hshape : IndexShape s root T) {separator key : List Value}
    (hfirst : firstKeys s root = some (separator, key)) : lo (compareKeys key separator) := by
  have hpage : s.pages root = .body T.body := hshape.rootId ▸ stored_body hshape.stored
  rw [firstKeys, hpage] at hfirst
  cases H with
  | zero => cases hfirst
  | succ h =>
      obtain ⟨⟨i, kids, last⟩, hn⟩ := T.exists_node
      rw [hn] at hsep hshape hfirst
      rcases kids with _ | ⟨⟨t, d⟩, rest⟩
      · cases hfirst
      · have hchild : s.pages t.id = .body (IndexTree.body t) := by
          refine stored_body fun p hp => hshape.stored p ?_
          rw [IndexTree.image_eq]
          exact List.mem_cons_of_mem _ (image_child_subset (List.mem_cons_self ..) hp)
        have hbelow : (match s.pages t.id with
            | .body (.indexLeaf (below :: _)) => do
                let separator ← localKey d.cell
                let key ← localKey below
                return (separator, key)
            | _ => none) = some (separator, key) := hfirst
        rw [hchild] at hbelow
        obtain ⟨hleft, -⟩ := hsep .root ⟨i, [], (unlink rest last).2⟩ t d (unlink rest last).1
          (by rw [← node_eq_fill]; rfl)
        cases h with
        | succ h => cases hbelow
        | zero =>
            obtain ⟨⟨j, items⟩, hl⟩ := t.exists_leaf
            rw [hl] at hbelow hleft
            rcases items with _ | ⟨e, items⟩
            · cases hbelow
            · have hkeys : ((localKey d.cell).bind fun separator => (localKey e.cell).bind fun key =>
                  some (separator, key)) = some (separator, key) := hbelow
              obtain ⟨_, hd, hkeys⟩ := Option.bind_eq_some_iff.mp hkeys
              obtain ⟨_, he, hkeys⟩ := Option.bind_eq_some_iff.mp hkeys
              obtain ⟨rfl, rfl⟩ := Prod.mk.inj (Option.some.inj hkeys)
              rw [localKey_cell hd, localKey_cell he]
              exact hleft e (List.mem_cons_self ..)

/-- How the first keys compare after calls on an empty tree that all return. -/
def firstOrder (calls : List IndexCall) : Option Ordering :=
  match runIndexCalls 2 calls emptyIndex with
  | (.ok _, s') => (firstKeys s' 2).map fun keys => compareKeys keys.2 keys.1
  | (.error _, _) => none

/-- The calls return, and no tree at the root is separated in this way. -/
def Disordered (lo hi : Ordering → Prop) (calls : List IndexCall) : Prop :=
  ∃ answers s', runIndexCalls 2 calls emptyIndex = (.ok answers, s') ∧
    ∀ (H : Nat) (T : IndexTree H), IndexShape s' 2 T → ¬ Separated lo hi T

theorem disordered_of_first {lo hi : Ordering → Prop} {calls : List IndexCall} {o : Ordering}
    (hfirst : firstOrder calls = some o) (hlo : ¬ lo o) : Disordered lo hi calls := by
  unfold firstOrder at hfirst
  split at hfirst
  · rename_i answers s' hrun
    obtain ⟨⟨separator, key⟩, hkeys, rfl⟩ := Option.map_eq_some_iff.mp hfirst
    exact ⟨answers, s', hrun, fun H T hshape hsep => hlo (hsep.first hshape hkeys)⟩
  · cases hfirst

/-- One entry five times. -/
def repeatedKeys : List IndexCall := List.replicate 5 (.insert [filler 985 7] 1)

/-- Five keys that begin with a NaN. -/
def nanKeys : List IndexCall :=
  [1, 2, 3, 4, 5].map (.insert [.real 0x7FF8000000000000#64, filler 975 7])

/-- Keys of two columns among keys of three. -/
def shortKeys : List IndexCall :=
  [.insert [filler 485 7, .int 1] 3, .insert [filler 485 7] 1, .insert [filler 485 7] 1,
    .insert [filler 485 7] 1, .insert [filler 485 7, .int 1] 5] ++
    [5, 4, 3, 2].map (.insert [filler 485 8, .int 1])

/-- Equal entries may lie on both sides of a divider; and without an order on the
keys there is none in the tree. -/
theorem index_keys_disordered : Disordered (· = .lt) (· = .gt) repeatedKeys ∧
    Disordered (· ≠ .gt) (· ≠ .lt) nanKeys ∧ Disordered (· ≠ .gt) (· ≠ .lt) shortKeys := by
  refine ⟨disordered_of_first (o := .eq) ?_ ?_, disordered_of_first (o := .gt) ?_ ?_,
    disordered_of_first (o := .gt) ?_ ?_⟩
  · decide +kernel
  · decide
  · decide +kernel
  · decide
  · decide +kernel
  · decide

end QuillDb
