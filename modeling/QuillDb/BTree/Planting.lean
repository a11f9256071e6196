/-
  BTree/Planting.lean --- new trees in a database.

  Source: `allocate_page` of `quilldb/storage/bufferpool.py`, `create_table`,
  `create_index` and `_backfill` of `quilldb/catalog/catalog.py`.

  A page is taken, becomes an empty leaf, and that leaf is the root of one tree more.
  The other trees say what they said before.
-/
import QuillDb.BTree.Content

set_option autoImplicit false

namespace QuillDb

open Prog PageStore PageTree Fallible

/-- The trees and a page that is no tree yet. -/
def StoresSpare (header : PageContent) (slots : List (TreeKind × Nat)) (content : Content) (id : Nat)
    (s : PageStore) : Prop :=
  ∃ (trees : List StoredTree) (page : PageContent), (∀ t ∈ trees, t.Sound) ∧
    (trees.map StoredTree.slot).Perm slots ∧ (∀ t ∈ trees, t.Shows content) ∧
      LiveBut ⟨header, [], 0⟩ s ((id, page) :: trees.flatMap StoredTree.image)

variable {header : PageContent} {slots : List (TreeKind × Nat)} {content : Content} {s : PageStore} {root id : Nat}

/-- The rows of a page say one list of rows. -/
theorem Row.Shows.rightUnique : Relator.RightUnique (List.Forall₂ Row.Shows) :=
  Relator.RightUnique.forall₂ fun _ _ _ h h' => h.unique h'

namespace Stores

theorem perm {slots' : List (TreeKind × Nat)} (hs : Stores header slots content s) (hslots : slots.Perm slots') :
    Stores header slots' content s := by
  obtain ⟨trees, hf, hperm, hshows⟩ := hs
  exact ⟨trees, hf, hperm.trans hslots, hshows⟩

/-- Page 1 is no tree's. -/
theorem set_header (hs : Stores header slots content s) (c : PageContent) :
    Stores c slots content (s.set schemaRootPage c) := by
  obtain ⟨trees, hf, hslots, hshows⟩ := hs
  exact ⟨trees, ⟨hf.sound, hf.live.set_header c⟩, hslots, hshows⟩

/-- What is on page 1. -/
theorem header_eq (hs : Stores header slots content s) : s.pages schemaRootPage = header := by
  obtain ⟨trees, hf, -⟩ := hs
  exact hf.live.header

/-- Page 1 is there. -/
theorem pageCount_pos (hs : Stores header slots content s) : 1 ≤ s.pageCount := by
  obtain ⟨trees, hf, -⟩ := hs
  obtain ⟨fl, -, -, hperm⟩ := hf.live.free
  have hmem := hperm.mem_iff.mp (List.mem_cons_self ..)
  have hrange := List.mem_range'_1.mp hmem
  omega

/-- Every root is a page of the file. -/
theorem root_range (hs : Stores header slots content s) {slot : TreeKind × Nat} (hslot : slot ∈ slots) :
    2 ≤ slot.2 ∧ slot.2 ≤ s.pageCount := by
  obtain ⟨trees, hf, hslots, -⟩ := hs
  obtain ⟨t, ht, rfl⟩ := List.mem_map.mp (hslots.mem_iff.mpr hslot)
  apply hf.live.mem_range
  rw [List.map_flatMap]
  exact List.mem_flatMap.mpr ⟨t, ht, t.root_mem_image⟩

theorem allocate (hs : Stores header slots content s) {E : DbError → PageStore → Prop} :
    Post allocatePage s (fun id s' => StoresSpare header slots content id s') E := by
  obtain ⟨trees, hf, hslots, hshows⟩ := hs
  apply (allocatePage_post hf.live).mono ?_ fun _ _ he => he
  rintro id s' ⟨page, hlive⟩
  exact ⟨trees, page, hf.sound, hslots, hshows, hlive⟩

/-- A loop over a table whose turns enter keys into one index. -/
theorem eachInto {index : Nat} {visit : Int → Bytes → StoreM Unit}
    {I : List (Int × List Value) → List (List Value) → Prop} {E : DbError → PageStore → Prop}
    (hs : Stores header slots content s) (hslot : (.table, root) ∈ slots) (hindex : (.index, index) ∈ slots)
    (hstart : I [] (content.keys index))
    (hvisit : ∀ seen row after payload, content.rows root = seen ++ row :: after →
      decodeRecord payload 0 = .ok row.2 → ∀ {s : PageStore} {H : Nat} {U : IndexTree H} {rest : List StoredTree},
        U.id = index → Forest ⟨header, [], 0⟩ s (.index U :: rest) → I seen (U.entries.map Entry.key) →
          Post (visit row.1 payload) s (fun _ s' => ∃ (H' : Nat) (U' : IndexTree H'),
            Forest ⟨header, [], 0⟩ s' (.index U' :: rest) ∧ U'.id = index ∧
              I (seen ++ [row]) (U'.entries.map Entry.key)) E) :
    Post (TableCursor.each root visit) s (fun _ s' => ∃ keys, I (content.rows root) keys ∧
      Stores header slots (content.setKeys index keys) s') E := by
  obtain ⟨H, U, rest, rfl, hf, hslots, hkeys, hrest⟩ := hs.exists_index hindex
  -- the table is one of the other trees
  have hmem : ((.table, root) : TreeKind × Nat) ∈ rest.map StoredTree.slot := by
    rcases List.mem_cons.mp (hslots.mem_iff.mpr hslot) with heq | hmem
    · cases congrArg Prod.fst heq
    · exact hmem
  obtain ⟨t, ht, htslot⟩ := List.mem_map.mp hmem
  cases t with
  | index T => cases congrArg Prod.fst htslot
  | @table H T =>
      obtain rfl : T.id = root := congrArg Prod.snd htslot
      have hrows : List.Forall₂ Row.Shows T.items (content.rows T.id) := hrest _ ht
      have hfirst : ∀ {s' : PageStore} {H' : Nat} {U' : IndexTree H'},
          Forest ⟨header, [], 0⟩ s' (.index U' :: rest) → ∃ others, TableAt s' T.id others T := by
        intro s' H' U' hf'
        obtain ⟨xs, ys, rfl⟩ := List.append_of_mem ht
        have hperm : (.index U' :: (xs ++ .table T :: ys)).Perm (.table T :: .index U' :: (xs ++ ys)) :=
          (List.perm_middle.cons _).trans (List.Perm.swap _ _ _)
        exact ⟨_, (hf'.perm hperm).tableAt.toTableAt⟩
      let J (seen : List Row) (_ : List Unit) (s' : PageStore) : Prop :=
        ∃ (H' : Nat) (U' : IndexTree H'), Forest ⟨header, [], 0⟩ s' (.index U' :: rest) ∧ U'.id = U.id ∧
          ∀ rows, List.Forall₂ Row.Shows seen rows → I rows (U'.entries.map Entry.key)
      have hJ : J [] [] s := by
        refine ⟨_, U, hf, rfl, fun rows hnil => ?_⟩
        cases hnil
        exact hkeys ▸ hstart
      obtain ⟨others, htable⟩ := hfirst hf
      have hat : ∀ seen as s', J seen as s' → ∃ root others, TableAt s' root others T := by
        rintro seen as s' ⟨H', U', hf', _⟩
        obtain ⟨others, htable⟩ := hfirst hf'
        exact ⟨_, _, htable⟩
      apply (each_post (I := J) hat ?_ htable hJ).mono
      · rintro as s' ⟨H', U', hf', hid, hI⟩
        exact ⟨_, hI _ hrows, of_index hf' hid hslots rfl hrest⟩
      · exact fun _ _ he => he
      · rintro seen r after as s' hitems ⟨H', U', hf', hid, hseen⟩
        rw [hitems] at hrows
        obtain ⟨us, vs, hus, hvs, hcontent⟩ := forall₂_append_left hrows
        obtain ⟨row, vs, hrow, hvs, rfl⟩ := List.forall₂_cons_left_iff.mp hvs
        have hpost := hvisit us row vs r.stored.data hcontent hrow.2 hid hf' (hseen us hus)
        rw [← hrow.1] at hpost
        apply hpost.mono ?_ fun _ _ he => he
        rintro _ s'' ⟨H'', U'', hf'', hid'', hI⟩
        refine ⟨H'', U'', hf'', hid'', fun rows hshows => ?_⟩
        have hsame := Row.Shows.rightUnique hshows (List.rel_append hus (.cons hrow .nil))
        exact hsame ▸ hI

end Stores

namespace StoresSpare

/-- The new page is not the root of a tree. -/
theorem fresh (hs : StoresSpare header slots content id s) : ∀ slot ∈ slots, slot.2 ≠ id := by
  obtain ⟨trees, page, -, hslots, -, hlive⟩ := hs
  intro slot hslot heq
  obtain ⟨t, ht, rfl⟩ := List.mem_map.mp (hslots.mem_iff.mpr hslot)
  apply (List.nodup_cons.mp hlive.ids_nodup).1
  rw [← heq, List.map_flatMap]
  exact List.mem_flatMap.mpr ⟨t, ht, t.root_mem_image⟩

theorem le_pageCount (hs : StoresSpare header slots content id s) : id ≤ s.pageCount := by
  obtain ⟨trees, page, -, -, -, hlive⟩ := hs
  exact (hlive.mem_range (List.mem_cons_self ..)).2

theorem header_eq (hs : StoresSpare header slots content id s) : s.pages schemaRootPage = header := by
  obtain ⟨trees, page, -, -, -, hlive⟩ := hs
  exact hlive.header

/-- The new page becomes the root of an empty table. -/
theorem initTable (hs : StoresSpare header slots content id s) (hid : id < 2 ^ 32) :
    Post (initBody id (.tableLeaf [])) s
      (fun _ s' => Stores header ((.table, id) :: slots) (content.setRows id []) s') fun _ _ => True := by
  obtain ⟨trees, page, hsound, hslots, hshows, hlive⟩ := hs
  apply (initBody_post (fun _ => trivial) hlive fun _ => trivial).mono ?_ fun _ _ he => he
  rintro _ s' ⟨hlive', _⟩
  have htable : TableAtBut ⟨header, [], 0⟩ s' id (trees.flatMap StoredTree.image) (.leaf ⟨id, []⟩ : TableTree 0) :=
    ⟨tableAt_empty hid hlive'.live, hlive'⟩
  exact Stores.of_table (Forest.of_tableAt htable hsound) rfl (hslots.cons _) .nil hshows

/-- The new page becomes the root of an empty index. -/
theorem initIndex (hs : StoresSpare header slots content id s) (hid : id < 2 ^ 32) :
    Post (initBody id (.indexLeaf [])) s
      (fun _ s' => Stores header ((.index, id) :: slots) (content.setKeys id []) s') fun _ _ => True := by
  obtain ⟨trees, page, hsound, hslots, hshows, hlive⟩ := hs
  apply (initBody_post (fun _ => trivial) hlive fun _ => trivial).mono ?_ fun _ _ he => he
  rintro _ s' ⟨hlive', _⟩
  have hindex : IndexStored s' id (trees.flatMap StoredTree.image) (.leaf ⟨id, []⟩ : IndexTree 0) :=
    indexStored_empty hid hlive'.live
  exact Stores.of_index (T := (.leaf ⟨id, []⟩ : IndexTree 0))
    (Forest.of_indexStored hindex.filled hindex.small hlive' hsound) rfl (hslots.cons _) rfl hshows

end StoresSpare

end QuillDb
