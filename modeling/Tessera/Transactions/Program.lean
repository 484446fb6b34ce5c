import Mathlib.Tactic

/-!
# Programs that run database transactions

A client of a transactional store as a tree of statements.  The tree is what the client
*does*; what each statement does to the store is said once, by the `Database` it is run
against, and how several clients interleave is said by the pool that runs them.

* `Program` — the tree: reads of a snapshot, row locks, row writes, sequence draws,
  readings of the clock or of a random generator, commit and rollback;
* `Program.handle` — sequencing that sees the error too, from which `bind`, `tryCatch` and
  `transaction` are defined;
* `transaction` — a block whose error rolls it back, and whose deferred checks run at commit.
-/

namespace Transactions

/-- The two strengths of a row lock. -/
inductive LockMode
  | share
  | exclusive
  deriving DecidableEq, Repr

/-- Two holders conflict unless both only share. -/
def LockMode.conflicts : LockMode → LockMode → Bool
  | .share, .share => false
  | _, _ => true

@[simp] theorem LockMode.exclusive_conflicts (m : LockMode) :
    LockMode.exclusive.conflicts m = true := by
  cases m <;> rfl

@[simp] theorem LockMode.conflicts_exclusive (m : LockMode) :
    m.conflicts .exclusive = true := by
  cases m <;> rfl

/-- Two locks conflict whichever comes first. -/
theorem LockMode.conflicts_comm (m n : LockMode) : m.conflicts n = n.conflicts m := by
  cases m <;> cases n <;> rfl

/-- A client of a store with states `σ`, row locks `κ` and row writes `ω`.  It may read
values `ι` from outside (a clock, a random generator), and fails with an `ε`. -/
inductive Program (σ κ ω ι ε : Type) (α : Type) where
  /-- The client has finished, with a value or with an error. -/
  | done (result : Except ε α)
  /-- A reading from outside the store. -/
  | input (next : ι → Program σ κ ω ι ε α)
  /-- A statement that reads the rows visible when it starts. -/
  | query (next : σ → Program σ κ ω ι ε α)
  /-- Wait for a row lock, then read the rows as they are once it is granted. -/
  | lock (key : κ) (mode : LockMode) (next : σ → Program σ κ ω ι ε α)
  /-- A row write, visible to others once committed. -/
  | write (row : ω) (next : Program σ κ ω ι ε α)
  /-- A write that takes effect at once and survives a rollback: a sequence draw. -/
  | instant (row : ω) (next : σ → Program σ κ ω ι ε α)
  /-- Run the deferred checks and publish the pending writes. -/
  | commit (next : Except ε Unit → Program σ κ ω ι ε α)
  /-- Drop the pending writes. -/
  | rollback (next : Program σ κ ω ι ε α)

namespace Program

variable {σ κ ω ι ε α β γ : Type}

/-- The value or error of a program that has finished. -/
def result : Program σ κ ω ι ε α → Option (Except ε α)
  | .done r => some r
  | _ => none

/-! ## Sequencing -/

/-- Continue with what the program returned, value or error. -/
def handle : Program σ κ ω ι ε α → (Except ε α → Program σ κ ω ι ε β) → Program σ κ ω ι ε β
  | .done result, k => k result
  | .input next, k => .input fun x => (next x).handle k
  | .query next, k => .query fun s => (next s).handle k
  | .lock key mode next, k => .lock key mode fun s => (next s).handle k
  | .write row next, k => .write row (next.handle k)
  | .instant row next, k => .instant row fun s => (next s).handle k
  | .commit next, k => .commit fun r => (next r).handle k
  | .rollback next, k => .rollback (next.handle k)

/-- Continue with the value; an error ends the program. -/
def bind (p : Program σ κ ω ι ε α) (k : α → Program σ κ ω ι ε β) : Program σ κ ω ι ε β :=
  p.handle fun
    | .ok a => k a
    | .error e => .done (.error e)

instance : Monad (Program σ κ ω ι ε) where
  pure a := .done (.ok a)
  bind := bind

instance : MonadExcept ε (Program σ κ ω ι ε) where
  throw e := .done (.error e)
  tryCatch p k := p.handle fun
    | .ok a => .done (.ok a)
    | .error e => k e

/-! ## Blocks of statements -/

/-- A value the client reads from outside the store. -/
def read : Program σ κ ω ι ε ι :=
  .input fun x => .done (.ok x)

/-- A plain `SELECT`: what `view` finds in the statement's snapshot. -/
def select (view : σ → α) : Program σ κ ω ι ε α :=
  .query fun s => .done (.ok (view s))

/-- Wait for one lock, then look at the row. -/
def acquire (key : κ) (mode : LockMode) (view : σ → α) : Program σ κ ω ι ε α :=
  .lock key mode fun s => .done (.ok (view s))

/-- Write one row. -/
def put (row : ω) : Program σ κ ω ι ε Unit :=
  .write row (.done (.ok ()))

/-- A write that is never rolled back, and the value drawn by it. -/
def draw (row : ω) (view : σ → α) : Program σ κ ω ι ε α :=
  .instant row fun s => .done (.ok (view s))

/-- Fail unless the condition holds. -/
def ensure (condition : Bool) (e : ε) : Program σ κ ω ι ε Unit :=
  if condition then .done (.ok ()) else .done (.error e)

/-- The value of a computation that needs no statement. -/
def check (r : Except ε α) : Program σ κ ω ι ε α :=
  .done r

/-- `SELECT … FOR SHARE / FOR UPDATE` of at most one row.  The snapshot says which row, the
lock is awaited, and the row is looked at again as it then is; a row that no longer matches
is not returned. -/
def selectForLock (mode : LockMode) (key : α → κ) (view : σ → Option α) :
    Program σ κ ω ι ε (Option α) := do
  match ← select view with
  | none => pure none
  | some row => acquire (key row) mode view

/-- `UPDATE … WHERE …` of at most one row: the number of rows it matched. -/
def updateRow (key : α → κ) (view : σ → Option α) (change : α → ω) :
    Program σ κ ω ι ε Nat := do
  match ← selectForLock .exclusive key view with
  | none => pure 0
  | some row =>
    put (change row)
    pure 1

/-- The rows of a multi-row `SELECT … FOR UPDATE`, locked in the order in which the scan
returns them; a row that no longer matches once its lock is granted is left out. -/
def lockEach (key : α → κ) (again : α → σ → Option α) :
    List α → Program σ κ ω ι ε (List α)
  | [] => pure []
  | row :: rows => do
    let found ← acquire (key row) .exclusive (again row)
    let rest ← lockEach key again rows
    pure (found.toList ++ rest)

/-- The rows of a multi-row `UPDATE`, locked, looked at again and written one by one. -/
def updateEach (key : α → κ) (again : α → σ → Option α) (change : α → ω) :
    List α → Program σ κ ω ι ε Unit
  | [] => pure ()
  | row :: rows => do
    match ← acquire (key row) .exclusive (again row) with
    | none => pure ()
    | some now => put (change now)
    updateEach key again change rows

/-- The statements for each element of a list, in order. -/
def forEach (body : α → Program σ κ ω ι ε Unit) : List α → Program σ κ ω ι ε Unit
  | [] => pure ()
  | a :: rest => do
    body a
    forEach body rest

/-- A transaction: the block's error rolls it back and is thrown on, its value is returned
once the deferred checks have passed and the writes are committed. -/
def transaction (body : Program σ κ ω ι ε α) : Program σ κ ω ι ε α :=
  body.handle fun
    | .ok a => .commit fun
      | .ok () => .done (.ok a)
      | .error e => .done (.error e)
    | .error e => .rollback (.done (.error e))

end Program

end Transactions
