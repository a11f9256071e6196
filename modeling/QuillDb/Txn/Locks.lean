/-
  Txn/Locks.lean --- the lock manager and its threads.

  Source: `quilldb/txn/locks.py`.

  Each transaction is one thread.  A step is what a thread does between two
  points at which it gives up the resource's condition: the entry of `acquire`
  with its fast path, one round of the wait loop (`grantable`, then the work
  under `_latch`), the `notify_all` of `_wake`, the end of a `wait()`, the
  `finally` block in its two halves, and `release_all` one entry at a time.  Any
  interleaving of these is a run.
-/
import QuillDb.Basic
import QuillDb.Lib.CycleSearch
import QuillDb.Lib.Dict

set_option autoImplicit false

namespace QuillDb

inductive LockMode where
  | shared
  | exclusive
  deriving DecidableEq, Repr

/-- `LockMode.name`. -/
def LockMode.name : LockMode → String
  | .shared => "SHARED"
  | .exclusive => "EXCLUSIVE"

/-- `COMPATIBLE`. -/
def compatible : LockMode → LockMode → Bool
  | .shared, .shared => true
  | _, _ => false

structure LockEntry where
  holders : Dict Nat LockMode := []
  waiters : List (Nat × LockMode) := []

namespace LockEntry

/-- The hold of `t` already satisfies the request. -/
def sufficient (e : LockEntry) (t : Nat) (m : LockMode) : Bool :=
  match e.holders.lookup t with
  | some held => held = m || held = .exclusive
  | none => false

/-- `grantable`: nobody is queued ahead, and every other holder is compatible. -/
def grantable (e : LockEntry) (t : Nat) (m : LockMode) : Bool :=
  (match e.waiters with
    | [] => true
    | w :: _ => w.1 = t) &&
  e.holders.all fun h => h.1 = t || compatible m h.2

/-- `entry.holders[txn_id] = mode`. -/
def grant (e : LockEntry) (t : Nat) (m : LockMode) : LockEntry :=
  { e with holders := e.holders.put t m }

/-- `entry.waiters.append((txn_id, mode))`. -/
def enqueue (e : LockEntry) (t : Nat) (m : LockMode) : LockEntry :=
  { e with waiters := e.waiters ++ [(t, m)] }

/-- `entry.waiters.remove((txn_id, mode))`. -/
def dequeue (e : LockEntry) (t : Nat) (m : LockMode) : LockEntry :=
  { e with waiters := e.waiters.erase (t, m) }

/-- `entry.holders.pop(txn_id, None)`. -/
def drop (e : LockEntry) (t : Nat) : LockEntry := { e with holders := e.holders.erase t }

end LockEntry

/-- How a call of `acquire` ends. -/
abbrev Outcome : Type := Except DbError Unit

/-- Where a transaction's thread stands. -/
inductive ThreadState where
  /-- Not inside the lock manager. -/
  | outside
  /-- Awake in the wait loop, holding the resource's condition next. -/
  | checking (resource : String) (mode : LockMode)
  /-- In `entry.condition.wait`. -/
  | asleep (resource : String) (mode : LockMode)
  /-- In `_wake`, about to notify `target`. -/
  | waking (resource : String) (mode : LockMode) (target : String)
  /-- In `finally`, off the queue, before the second `with self._latch`. -/
  | leaving (outcome : Outcome)
  /-- In `release_all`, with these entries to go. -/
  | releasing (rest : List String)

namespace ThreadState

/-- The request a thread has in a queue. -/
def request : ThreadState → Option (String × LockMode)
  | checking r m => some (r, m)
  | asleep r m => some (r, m)
  | waking r m _ => some (r, m)
  | _ => none

/-- What `notify_all` on `r` does to a thread. -/
def notified (r : String) : ThreadState → ThreadState
  | asleep r' m => if r' = r then checking r' m else asleep r' m
  | p => p

end ThreadState

/-- The lock manager and the threads that use it. -/
structure LockSystem where
  locks : Dict String LockEntry := []
  waitingFor : Dict Nat String := []
  doomed : Dict Nat (List (Nat × String × Nat)) := []
  threads : Nat → ThreadState := fun _ => .outside

namespace LockSystem

/-- The entry of a resource; `_entry_for` creates an empty one. -/
def entry (s : LockSystem) (r : String) : LockEntry := (s.locks.lookup r).getD {}

def setEntry (s : LockSystem) (r : String) (e : LockEntry) : LockSystem :=
  { s with locks := s.locks.put r e }

def setThread (s : LockSystem) (t : Nat) (p : ThreadState) : LockSystem :=
  { s with threads := fun u => if u = t then p else s.threads u }

/-- `condition.notify_all()`. -/
def notifyAll (s : LockSystem) (r : String) : LockSystem :=
  { s with threads := fun t => (s.threads t).notified r }

/-! ## Detection -/

/-- The edges the walk follows from `t`: to the other holders of the resource
it waits for. -/
def holdersBlocking (s : LockSystem) (t : Nat) : List (String × Nat) :=
  match s.waitingFor.lookup t with
  | none => []
  | some r =>
      match s.locks.lookup r with
      | none => []
      | some e => ((e.holders.map Prod.fst).filter fun h => h ≠ t).map fun h => (r, h)

/-- `_detect_deadlock`: the youngest transaction of the first cycle the walk
meets, and the cycle.  A path visits each transaction with an outgoing edge at
most once, which bounds the recursion. -/
def detectDeadlock (s : LockSystem) (t : Nat) : Option (Nat × List (Nat × String × Nat)) :=
  (CycleSearch.search s.holdersBlocking (s.waitingFor.length + 1) [] [] t).map
    fun found => (found.1.foldl max 0, found.2)

/-! ## Steps -/

/-- The first half of `finally`: off the queue, and wake whoever is next. -/
def leave (s : LockSystem) (t : Nat) (r : String) (m : LockMode) (outcome : Outcome) :
    LockSystem :=
  ((s.setEntry r ((s.entry r).dequeue t m)).notifyAll r).setThread t (.leaving outcome)

/-- The second half: forget the transaction's wait. -/
def settle (s : LockSystem) (t : Nat) : LockSystem :=
  { s with
    waitingFor := s.waitingFor.erase t
    doomed := s.doomed.erase t }.setThread t .outside

/-- `acquire` up to its wait loop. -/
def acquire (s : LockSystem) (t : Nat) (r : String) (m : LockMode) : LockSystem :=
  let e := s.entry r
  if e.sufficient t m then s.setEntry r e
  else if e.grantable t m then (s.setEntry r (e.grant t m)).notifyAll r
  else (s.setEntry r (e.enqueue t m)).setThread t (.checking r m)

/-- The end of a round: give up if the deadline has passed, else wait. -/
def sleep (s : LockSystem) (t : Nat) (r : String) (m : LockMode) (expired : Bool) : LockSystem :=
  if expired then
    s.leave t r m (.error (.lockTimeout s!"txn {t} timed out waiting for {m.name} on '{r}'"))
  else s.setThread t (.asleep r m)

/-- Condemn the victim of a cycle that `t` has found, unless it already is, and
wake it. -/
def doom (s : LockSystem) (t : Nat) (r : String) (m : LockMode) (expired : Bool) (victim : Nat)
    (cycle : List (Nat × String × Nat)) : LockSystem :=
  match s.doomed.lookup victim with
  | some _ => s.sleep t r m expired
  | none =>
      let s := { s with doomed := s.doomed.put victim cycle }
      match s.waitingFor.lookup victim with
      | none => s.sleep t r m expired
      | some target =>
          if target = r then s.notifyAll r else s.setThread t (.waking r m target)

/-- One round of the wait loop. -/
def check (s : LockSystem) (t : Nat) (r : String) (m : LockMode) (expired : Bool) : LockSystem :=
  if (s.entry r).grantable t m then
    (s.setEntry r ((s.entry r).grant t m)).leave t r m (.ok ())
  else
    match s.doomed.lookup t with
    | some cycle =>
        { s with doomed := s.doomed.erase t }.leave t r m (.error (.deadlock t cycle))
    | none =>
        let s := { s with waitingFor := s.waitingFor.put t r }
        match s.detectDeadlock t with
        | none => s.sleep t r m expired
        | some (victim, cycle) =>
            if victim = t then s.leave t r m (.error (.deadlock victim cycle))
            else s.doom t r m expired victim cycle

/-- `release_all`, one entry. -/
def release (s : LockSystem) (t : Nat) (r : String) (rest : List String) : LockSystem :=
  let e := s.entry r
  (match e.holders.lookup t with
    | some _ => (s.setEntry r (e.drop t)).notifyAll r
    | none => s).setThread t (.releasing rest)

/-- What a thread may do next. -/
inductive Action where
  | acquire (t : Nat) (r : String) (m : LockMode)
  /-- A round of the wait loop; `expired`: the deadline has passed. -/
  | check (t : Nat) (expired : Bool)
  /-- The `notify_all` of `_wake`. -/
  | wake (t : Nat)
  /-- `wait()` returns unnotified. -/
  | timeout (t : Nat)
  | settle (t : Nat)
  | releaseAll (t : Nat)
  | release (t : Nat)

/-- One step; `none` when the thread is not where the action is taken. -/
def step (s : LockSystem) : Action → Option LockSystem
  | .acquire t r m =>
      match s.threads t with
      | .outside => some (s.acquire t r m)
      | _ => none
  | .check t expired =>
      match s.threads t with
      | .checking r m => some (s.check t r m expired)
      | _ => none
  | .wake t =>
      match s.threads t with
      | .waking r m target => some ((s.notifyAll target).setThread t (.checking r m))
      | _ => none
  | .timeout t =>
      match s.threads t with
      | .asleep r m => some (s.setThread t (.checking r m))
      | _ => none
  | .settle t =>
      match s.threads t with
      | .leaving _ => some (s.settle t)
      | _ => none
  | .releaseAll t =>
      match s.threads t with
      | .outside => some (s.setThread t (.releasing (s.locks.map Prod.fst)))
      | _ => none
  | .release t =>
      match s.threads t with
      | .releasing [] => some (s.settle t)
      | .releasing (r :: rest) => some (s.release t r rest)
      | _ => none

/-- The call of `acquire` that a step ends, and how. -/
def ended (s : LockSystem) : Action → List (Nat × Outcome)
  | .settle t =>
      match s.threads t with
      | .leaving outcome => [(t, outcome)]
      | _ => []
  | _ => []

/-- Runs whose steps all meet `ok`, with the calls they ended in the wait loop. -/
inductive Run (ok : LockSystem → Action → Prop) :
    LockSystem → List (Nat × Outcome) → LockSystem → Prop
  | refl (s : LockSystem) : Run ok s [] s
  | step {s s₁ s₂ : LockSystem} {ended : List (Nat × Outcome)} {a : Action}
      (run : Run ok s ended s₁) (meets : ok s₁ a) (stepped : s₁.step a = some s₂) :
      Run ok s (ended ++ s₁.ended a) s₂

end LockSystem

end QuillDb
