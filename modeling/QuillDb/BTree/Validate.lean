/-
  BTree/Validate.lean --- the validator of a table tree.

  Source: `validate_btree` of `quilldb/btree/validate.py`, `read_overflow_chain` of
  `quilldb/storage/overflow.py`.

  The walk marks every page before it fetches it, so it is never deeper than the file
  has pages; the same holds of a chain.  The fuel of both is one more than that, and
  `walk_enough` and `readChainFrom_enough` say that they never use it up.
-/
import QuillDb.BTree.RawTree

set_option autoImplicit false

namespace QuillDb

open Prog Machine Spans

/-- `repr` of a page type. -/
def PageType.pythonRepr : PageType → String
  | interiorIndex => "<PageType.INTERIOR_INDEX: 2>"
  | interiorTable => "<PageType.INTERIOR_TABLE: 5>"
  | leafIndex => "<PageType.LEAF_INDEX: 10>"
  | leafTable => "<PageType.LEAF_TABLE: 13>"

namespace Overflow

open PageStore (contentPerPage)

/-! ## Overflow chains -/

/-- `OverflowCycleError`. -/
def looped {α : Type} (current : Nat) : MachineM α :=
  raise (.overflowCycle s!"page {current} revisited -- overflow chain loops")

/-- The loop of `read_overflow_chain`. -/
def readChainFrom (inTxn : Bool) (out : Nat → MachineM Bytes) : Nat → List Nat → Nat → Nat → MachineM Bytes
  | 0, _, current, _ => out current
  | fuel + 1, visited, current, remaining =>
      if current = 0 then return zeros remaining
      else if current ∈ visited then looped current
      else do
        let raw ← BufferPool.getPage inTxn current
        let nextPage := fromBytes (slice raw.bytes 0 4)
        let chunkLen := min contentPerPage remaining
        let chunk := slice raw.bytes 4 chunkLen
        unpin current
        let rest ← readChainFrom inTxn out fuel (current :: visited) nextPage (remaining - chunkLen)
        return chunk ++ rest

/-- `read_overflow_chain`. -/
def readOverflowChain (inTxn : Bool) (firstPage totalLen : Nat) : MachineM Bytes := do
  let s ← state
  readChainFrom inTxn looped (s.header.pageCount + 1) [] firstPage totalLen

end Overflow

namespace Slotted

open Overflow (looped readChainFrom readOverflowChain)

/-! ## `validate_btree` -/

/-- One comparison of a key with a bound that may be missing. -/
def rejectIf (bound : Option Int) (bad : Int → Bool) (message : Int → String) : Except DbError Unit :=
  match bound with
  | some b => if bad b then .error (.btreeInvariant (message b)) else .ok ()
  | none => .ok ()

/-- The checks of a rowid or a separator: against the one before it and against the
bounds of its page. -/
def checkKey (what : String) (id : Nat) (prev low high : Option Int) (key : Int) :
    Except DbError Unit := do
  rejectIf prev (fun p => key ≤ p) fun p => s!"page {id}: {what} {key} out of order after {p}"
  rejectIf low (fun l => key ≤ l) fun l => s!"page {id}: {what} {key} <= lower bound {l}"
  rejectIf high (fun h => h < key) fun h => s!"page {id}: {what} {key} > upper bound {h}"

/-- A page, parsed under a pin that is released either way. -/
def readPage (id : Nat) : MachineM PageBody := do
  let raw ← getPage id
  finally_ (lift (parsePage raw.bytes 0)) (unpin id)

/-- The loop over the cells of a leaf. -/
def walkLeaf (id : Nat) (low high : Option Int) : Option Int → List Bytes → MachineM Unit
  | _, [] => return ()
  | prev, cell :: cells => do
      let c ← lift (decodeLeafTableCell cell)
      lift (checkKey "rowid" id prev low high c.rowid)
      if c.payload.overflow ≠ 0 then
        let _ ← readOverflowChain true c.payload.overflow (c.payload.total - c.payload.localPart.length)
      walkLeaf id low high (some c.rowid) cells

/-- What `walk` takes after the pages visited so far: a page and its bounds.  It returns
the depth of the leaves and the pages visited then. -/
abbrev Walk : Type := List Nat → Nat → Option Int → Option Int → MachineM (Nat × List Nat)

/-- The loop over the cells of an interior page, and its right child. -/
def walkChildren (walk : Walk) (id : Nat) (low high : Option Int) (rightChild : Nat) :
    Option Int → Option Int → List Nat → List Bytes → MachineM (List Nat × List Nat)
  | _, bound, visited, [] => do
      let r ← walk visited rightChild bound high
      return ([r.1], r.2)
  | prev, bound, visited, cell :: cells => do
      let c ← lift (decodeInteriorTableCell cell)
      lift (checkKey "separator" id prev low high c.key)
      let r ← walk visited c.child bound (some c.key)
      let rs ← walkChildren walk id low high rightChild (some c.key) (some c.key) r.2 cells
      return (r.1 :: rs.1, rs.2)

/-- The page of a tree once it is parsed. -/
def walkBody (walk : Walk) (visited : List Nat) (id : Nat) (low high : Option Int) (body : PageBody) :
    MachineM (Nat × List Nat) :=
  match body.pageType with
  | .leafTable => do
      walkLeaf id low high none body.cells
      return (1, visited)
  | .interiorTable => do
      let rs ← walkChildren walk id low high body.rightChild none low visited body.cells
      if rs.1.dedup.length ≠ 1 then
        raise (.btreeInvariant s!"page {id}: children have uneven heights {rs.1}")
      else return (1 + rs.1.headD 0, rs.2)
  | pageType =>
      raise (.btreeInvariant s!"page {id} has non-table page type {pageType.pythonRepr}")

/-- `walk`. -/
def walk : Nat → Walk
  | 0, _, id, _, _ => raise (.btreeInvariant s!"page {id} is reachable more than once")
  | fuel + 1, visited, id, low, high =>
      if id ∈ visited then raise (.btreeInvariant s!"page {id} is reachable more than once")
      else do
        let body ← readPage id
        walkBody (walk fuel) (id :: visited) id low high body

section Checks

variable {what : String} {id : Nat} {prev low high : Option Int} {key : Int}

theorem rejectIf_ok {bound : Option Int} {bad : Int → Bool} {message : Int → String} {u : Unit} :
    rejectIf bound bad message = .ok u ↔ ∀ b ∈ bound, bad b = false := by
  cases bound with
  | none => exact iff_of_true rfl fun b hb => by cases hb
  | some b =>
      rw [rejectIf]
      constructor
      · intro h c hc
        obtain rfl := Option.some.inj hc
        split at h
        · cases h
        · rename_i hbad
          exact Bool.eq_false_iff.mpr hbad
      · intro h
        rw [h b rfl, if_neg Bool.false_ne_true]

/-- A key that passes comes after the one before it, and lies in the interval. -/
theorem checkKey_ok {u : Unit} (h : checkKey what id prev low high key = .ok u) :
    (∀ p ∈ prev, p < key) ∧ Within low high key := by
  obtain ⟨_, hprev, h⟩ := Fallible.bind_eq_ok h
  obtain ⟨_, hlow, hhigh⟩ := Fallible.bind_eq_ok h
  refine ⟨fun p hp => ?_, fun l hl => ?_, fun b hb => ?_⟩
  · exact not_le.mp (of_decide_eq_false (rejectIf_ok.mp hprev p hp))
  · exact not_le.mp (of_decide_eq_false (rejectIf_ok.mp hlow l hl))
  · exact not_lt.mp (of_decide_eq_false (rejectIf_ok.mp hhigh b hb))

/-- The keys that a loop has let through. -/
structure Accepted (prev low high : Option Int) (keys : List Int) : Prop where
  after : ∀ p ∈ prev, ∀ k ∈ keys, p < k
  ascending : keys.Pairwise (· < ·)
  within : ∀ k ∈ keys, Within low high k

theorem Accepted.nil : Accepted prev low high [] where
  after _ _ _ h := absurd h List.not_mem_nil
  ascending := .nil
  within _ h := absurd h List.not_mem_nil

theorem Accepted.cons {keys : List Int} {u : Unit} (hkey : checkKey what id prev low high key = .ok u)
    (h : Accepted (some key) low high keys) : Accepted prev low high (key :: keys) := by
  obtain ⟨hprev, hwithin⟩ := checkKey_ok hkey
  have hafter : ∀ k ∈ keys, key < k := fun k hk => h.after key rfl k hk
  refine ⟨fun p hp k hk => ?_, List.pairwise_cons.mpr ⟨hafter, h.ascending⟩, ?_⟩
  · rcases List.mem_cons.mp hk with rfl | hk
    · exact hprev p hp
    · exact (hprev p hp).trans (hafter k hk)
  · exact List.forall_mem_cons.mpr ⟨hwithin, h.within⟩

end Checks

/-! ## Runs -/

section Runs

variable {s s' : Machine} {id fuel : Nat} {visited : List Nat} {prev low high bound : Option Int}

/-- Distinct pages of the file. -/
structure Visits (s : Machine) (visited : List Nat) : Prop where
  nodup : visited.Nodup
  inFile : ∀ id ∈ visited, 1 ≤ id ∧ id ≤ s.header.pageCount

theorem Visits.nil : Visits s [] where
  nodup := .nil
  inFile _ h := absurd h List.not_mem_nil

theorem Visits.cons (h : Visits s visited) (hnew : id ∉ visited)
    (hid : 1 ≤ id ∧ id ≤ s.header.pageCount) : Visits s (id :: visited) :=
  ⟨List.nodup_cons.mpr ⟨hnew, h.nodup⟩, List.forall_mem_cons.mpr ⟨hid, h.inFile⟩⟩

theorem Visits.length_le (h : Visits s visited) : visited.length ≤ s.header.pageCount := by
  have hsub : visited ⊆ List.range' 1 s.header.pageCount := by
    intro id hid
    have hrange := h.inFile id hid
    rw [List.mem_range'_1]
    omega
  have hle := (List.subperm_of_subset h.nodup hsub).length_le
  rwa [List.length_range'] at hle

theorem readPage_post (h : Reading s [] s') (id : Nat) :
    Post (readPage id) s' (fun body s₁ => Reading s [] s₁ ∧ Parses s id body) fun _ _ => True := by
  refine (h.getPage id).bind (fun raw s₁ hraw => ?_) fun _ _ _ => trivial
  obtain ⟨rfl, hid, hread⟩ := hraw
  obtain ⟨s₂, hunpin, hread₂⟩ := hread.unpin
  unfold Post Prog.finally_
  rw [lift_apply]
  dsimp only
  rw [hunpin]
  cases hparse : parsePage (s.page id).bytes 0 with
  | error e => trivial
  | ok body => exact ⟨hread₂, hid, hparse⟩

theorem readChainFrom_post (h : Reading s [] s') (fuel : Nat) (visited : List Nat)
    (current remaining : Nat) :
    Post (readChainFrom true looped fuel visited current remaining) s' (fun _ s₁ => Reading s [] s₁)
      fun _ _ => True := by
  induction fuel generalizing s' visited current remaining with
  | zero => trivial
  | succ fuel ih =>
      rw [readChainFrom]
      split
      · exact h
      · split
        · trivial
        · refine (h.getPage current).bind (fun raw s₁ hraw => ?_) fun _ _ _ => trivial
          obtain ⟨rfl, -, hread⟩ := hraw
          obtain ⟨s₂, hunpin, hread₂⟩ := hread.unpin
          refine (post_bind _ _).mpr (Post.of_eq hunpin ?_)
          exact (ih hread₂ _ _ _).bind (fun _ s₃ hread₃ => hread₃) fun _ _ _ => trivial

/-- A chain never uses up its fuel. -/
theorem readChainFrom_enough (h : Reading s [] s') (hv : Visits s visited) (current remaining : Nat)
    (hfuel : s.header.pageCount < visited.length + fuel) :
    readChainFrom true looped (fuel + 1) visited current remaining s' =
      readChainFrom true looped fuel visited current remaining s' := by
  induction fuel generalizing s' visited current remaining with
  | zero =>
      have := hv.length_le
      omega
  | succ fuel ih =>
      rw [readChainFrom, readChainFrom]
      split
      · rfl
      · split
        · rfl
        · rename_i hnew
          refine bind_congr_at rfl fun raw s₁ hraw => ?_
          obtain ⟨rfl, hid, hread⟩ := (h.getPage current).ok hraw
          obtain ⟨s₂, hunpin, hread₂⟩ := hread.unpin
          refine bind_congr_at rfl fun _ s₃ hrun => ?_
          obtain ⟨-, rfl⟩ := Prod.mk.inj (hunpin.symm.trans hrun)
          refine bind_congr_at (ih hread₂ (hv.cons hnew hid) _ _ ?_) fun _ _ _ => rfl
          rw [List.length_cons]
          omega

theorem readOverflowChain_post (h : Reading s [] s') (firstPage totalLen : Nat) :
    Post (readOverflowChain true firstPage totalLen) s' (fun _ s₁ => Reading s [] s₁) fun _ _ => True :=
  readChainFrom_post h _ _ _ _

/-- A leaf that passes. -/
theorem walkLeaf_post (h : Reading s [] s') (cells : List Bytes) :
    Post (walkLeaf id low high prev cells) s' (fun _ s₁ => Reading s [] s₁ ∧
        ∃ decoded, cells.mapM decodeLeafTableCell = .ok decoded ∧
          Accepted prev low high (decoded.map TableLeafCell.rowid))
      fun _ _ => True := by
  induction cells generalizing s' prev with
  | nil => exact ⟨h, [], rfl, .nil⟩
  | cons cell cells ih =>
      rw [walkLeaf]
      cases hdecode : decodeLeafTableCell cell with
      | error e => trivial
      | ok c =>
          cases hcheck : checkKey "rowid" id prev low high c.rowid with
          | error e =>
              rw [post_bind, post_lift_ok, hcheck]
              trivial
          | ok u =>
              rw [post_bind, post_lift_ok, hcheck, post_bind, post_lift_ok]
              have hrest : ∀ s₁, Reading s [] s₁ →
                  Post (walkLeaf id low high (some c.rowid) cells) s₁ (fun _ s₂ => Reading s [] s₂ ∧
                    ∃ decoded, (cell :: cells).mapM decodeLeafTableCell = .ok decoded ∧
                      Accepted prev low high (decoded.map TableLeafCell.rowid)) fun _ _ => True := by
                intro s₁ hread
                refine (ih hread).mono (fun _ s₂ hpost => ?_) fun _ _ _ => trivial
                obtain ⟨hread₂, decoded, hmap, haccepted⟩ := hpost
                refine ⟨hread₂, c :: decoded, Fallible.mapM_eq_ok_iff.mpr
                  (.cons hdecode (Fallible.mapM_eq_ok_iff.mp hmap)), haccepted.cons hcheck⟩
              split
              · rw [post_bind]
                exact (readOverflowChain_post h _ _).mono (fun _ s₁ hread => hrest s₁ hread)
                  fun _ _ _ => trivial
              · exact hrest s' h

/-- What a walk that returns has found. -/
structure Walked (s : Machine) (fuel : Nat) (visited : List Nat) (low high : Option Int) (id : Nat)
    (r : Nat × List Nat) (s₁ : Machine) : Prop where
  reading : Reading s [] s₁
  visits : Visits s r.2
  longer : visited.length ≤ r.2.length
  tree : ∃ h, r.1 = h + 1 ∧ h < fuel ∧ Ranged s h low high id

/-- A walk that finds what it returns. -/
def Finds (s : Machine) (fuel : Nat) (walk : Walk) : Prop :=
  ∀ visited id low high s', Reading s [] s' → Visits s visited →
    Post (walk visited id low high) s' (Walked s fuel visited low high id) fun _ _ => True

/-- The children that pass. -/
theorem walkChildren_post {walk : Walk} (hwalk : Finds s fuel walk) {right : Nat} (cells : List Bytes)
    (h : Reading s [] s') (hv : Visits s visited) :
    Post (walkChildren walk id low high right prev bound visited cells) s' (fun rs s₁ =>
        Reading s [] s₁ ∧ Visits s rs.2 ∧ visited.length ≤ rs.2.length ∧
        ∃ decoded, cells.mapM decodeInteriorTableCell = .ok decoded ∧
          Accepted prev low high (decoded.map InteriorCell.key) ∧
          List.Forall₂ (fun span d => ∃ h, d = h + 1 ∧ h < fuel ∧
            Ranged s h span.low span.high span.item) (cut bound (dividers decoded) right high) rs.1)
      fun _ _ => True := by
  induction cells generalizing s' visited prev bound with
  | nil =>
      refine (hwalk visited right bound high s' h hv).bind (fun r s₁ hr => ?_) fun _ _ _ => trivial
      exact ⟨hr.reading, hr.visits, hr.longer, [], rfl, .nil, .cons hr.tree .nil⟩
  | cons cell cells ih =>
      rw [walkChildren]
      cases hdecode : decodeInteriorTableCell cell with
      | error e => trivial
      | ok c =>
          cases hcheck : checkKey "separator" id prev low high c.key with
          | error e =>
              rw [post_bind, post_lift_ok, hcheck]
              trivial
          | ok u =>
              rw [post_bind, post_lift_ok, hcheck, post_bind, post_lift_ok]
              refine (hwalk visited c.child bound (some c.key) s' h hv).bind (fun r s₁ hr => ?_)
                fun _ _ _ => trivial
              refine (ih hr.reading hr.visits).bind (fun rs s₂ hrs => ?_) fun _ _ _ => trivial
              obtain ⟨hread, hvisits, hlonger, decoded, hmap, haccepted, htrees⟩ := hrs
              exact ⟨hread, hvisits, hr.longer.trans hlonger, c :: decoded,
                Fallible.mapM_eq_ok_iff.mpr (.cons hdecode (Fallible.mapM_eq_ok_iff.mp hmap)),
                haccepted.cons hcheck, .cons hr.tree htrees⟩

/-- A list with one value. -/
theorem eq_head_of_dedup {ds : List Nat} (h : ds.dedup.length = 1) : ∀ d ∈ ds, d = ds.headD 0 := by
  obtain ⟨d, hd⟩ := List.length_eq_one_iff.mp h
  have hall : ∀ x ∈ ds, x = d := fun x hx => by
    have hmem := List.mem_dedup.mpr hx
    rw [hd] at hmem
    exact List.mem_singleton.mp hmem
  intro x hx
  cases ds with
  | nil => cases hx
  | cons y ds => rw [hall x hx, List.headD_cons, hall y (List.mem_cons_self ..)]

theorem walkBody_post {walk : Walk} (hwalk : Finds s fuel walk) {body : PageBody} (h : Reading s [] s')
    (hv : Visits s visited) (hparses : Parses s id body) :
    Post (walkBody walk visited id low high body) s' (Walked s (fuel + 1) visited low high id)
      fun _ _ => True := by
  unfold walkBody
  split
  · rename_i htype
    refine (walkLeaf_post h body.cells).bind (fun _ s₁ hleaf => ?_) fun _ _ _ => trivial
    obtain ⟨hread, cells, hdecoded, haccepted⟩ := hleaf
    exact ⟨hread, hv, Nat.le_refl _, 0, rfl, Nat.succ_pos _, body, cells, ⟨hparses, htype, hdecoded⟩,
      haccepted.ascending, fun c hc => haccepted.within _ (List.mem_map_of_mem hc)⟩
  · rename_i htype
    refine (walkChildren_post hwalk body.cells h hv).bind (fun rs s₁ hrs => ?_) fun _ _ _ => trivial
    obtain ⟨hread, hvisits, hlonger, cells, hdecoded, haccepted, htrees⟩ := hrs
    split
    · trivial
    · rename_i heven
      have heq := eq_head_of_dedup (not_not.mp heven)
      have hall : ∀ span ∈ cut low (dividers cells) body.rightChild high, ∃ h,
          rs.1.headD 0 = h + 1 ∧ h < fuel ∧ Ranged s h span.low span.high span.item := by
        intro span hspan
        obtain ⟨d, hd, hspan⟩ := Fallible.exists_right htrees hspan
        rwa [heq d hd] at hspan
      have hkeys : (dividers cells).map Prod.fst = cells.map InteriorCell.key := List.map_map ..
      have hdividing : Dividing low high (dividers cells) := by
        refine ⟨hkeys ▸ haccepted.ascending, fun p hp => haccepted.within _ ?_⟩
        rw [← hkeys]
        exact List.mem_map_of_mem hp
      obtain ⟨height, hheight, hlt⟩ : ∃ h, rs.1.headD 0 = h + 1 ∧ h < fuel := by
        cases hcut : cut low (dividers cells) body.rightChild high with
        | nil => cases hd : dividers cells <;> rw [hd] at hcut <;> cases hcut
        | cons span spans =>
            obtain ⟨h, hh, hlt, -⟩ := hall span (hcut ▸ List.mem_cons_self ..)
            exact ⟨h, hh, hlt⟩
      refine ⟨hread, hvisits, hlonger, height + 1, ?_, Nat.succ_lt_succ hlt, body, cells,
        ⟨hparses, htype, hdecoded⟩, hdividing, fun span hspan => ?_⟩
      · rw [hheight, Nat.add_comm]
      · obtain ⟨h, hh, -, hsub⟩ := hall span hspan
        obtain rfl : h = height := by omega
        exact hsub
  · trivial

theorem walk_post (fuel : Nat) : Finds s fuel (walk fuel) := by
  induction fuel with
  | zero => exact fun _ _ _ _ _ _ _ => trivial
  | succ fuel ih =>
      intro visited id low high s' h hv
      rw [walk]
      split
      · trivial
      · rename_i hnew
        refine (readPage_post h id).bind (fun body s₁ hbody => ?_) fun _ _ _ => trivial
        obtain ⟨hread, hparses⟩ := hbody
        refine (walkBody_post ih hread (hv.cons hnew hparses.inFile) hparses).mono (fun r s₂ hr => ?_)
          fun _ _ _ => trivial
        exact ⟨hr.reading, hr.visits, (Nat.le_succ _).trans hr.longer, hr.tree⟩

/-- Two walks that agree from these pages on. -/
def AgreeFrom (s : Machine) (visited : List Nat) (walk walk' : Walk) : Prop :=
  ∀ visited' id low high s', Reading s [] s' → Visits s visited' → visited.length ≤ visited'.length →
    walk' visited' id low high s' = walk visited' id low high s'

theorem AgreeFrom.mono {walk walk' : Walk} {visited' : List Nat} (h : AgreeFrom s visited walk walk')
    (hle : visited.length ≤ visited'.length) : AgreeFrom s visited' walk walk' :=
  fun v id low high s' hread hv hlen => h v id low high s' hread hv (hle.trans hlen)

theorem walkChildren_agree {walk walk' : Walk} (hwalk : Finds s fuel walk)
    (hagree : AgreeFrom s visited walk walk') {right : Nat} (cells : List Bytes) (h : Reading s [] s')
    (hv : Visits s visited) :
    walkChildren walk' id low high right prev bound visited cells s' =
      walkChildren walk id low high right prev bound visited cells s' := by
  induction cells generalizing s' visited prev bound with
  | nil => exact bind_congr_at (hagree _ _ _ _ _ h hv (Nat.le_refl _)) fun _ _ _ => rfl
  | cons cell cells ih =>
      refine bind_congr_at rfl fun c s₁ hdecode => ?_
      obtain ⟨-, rfl⟩ := Prod.mk.inj hdecode
      refine bind_congr_at rfl fun _ s₁ hcheck => ?_
      obtain ⟨-, rfl⟩ := Prod.mk.inj hcheck
      refine bind_congr_at (hagree _ _ _ _ _ h hv (Nat.le_refl _)) fun r s₁ hr => ?_
      have hr := (hwalk _ _ _ _ _ h hv).ok ((hagree _ _ _ _ _ h hv (Nat.le_refl _)).symm.trans hr)
      exact bind_congr_at (ih (hagree.mono hr.longer) hr.reading hr.visits) fun _ _ _ => rfl

/-- A walk never uses up its fuel. -/
theorem walk_enough (hfuel : s.header.pageCount < visited.length + fuel) :
    AgreeFrom s visited (walk fuel) (walk (fuel + 1)) := by
  induction fuel generalizing visited with
  | zero =>
      intro visited' id low high s' h hv hlen
      have := hv.length_le
      omega
  | succ fuel ih =>
      intro visited' id low high s' h hv hlen
      rw [walk, walk]
      split
      · rfl
      · rename_i hnew
        refine bind_congr_at rfl fun body s₁ hbody => ?_
        obtain ⟨hread, hparses⟩ := (readPage_post h id).ok hbody
        unfold walkBody
        cases body.pageType with
        | interiorTable =>
            refine bind_congr_at (walkChildren_agree (walk_post fuel) (ih ?_) body.cells hread
              (hv.cons hnew hparses.inFile)) fun _ _ _ => rfl
            rw [List.length_cons]
            omega
        | _ => rfl

end Runs

end Slotted

end QuillDb
