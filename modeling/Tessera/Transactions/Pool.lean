import Tessera.Transactions.Program

/-!
# A pool of sessions over one database

Any number of clients run their programs against one committed state, one statement at a
time and in any order, under READ COMMITTED: a statement sees what is committed when it
starts and the session's own pending writes; a row lock is held to the end of its
transaction; a statement that waits for a lock looks at the row again once it has it.

* `Database` — what a write does, and which checks are deferred to commit;
* `Session`, `World` — a client in progress, and the pool;
* `World.step` — the executable step; `World.Run` — its runs.
-/

namespace Transactions

variable {σ κ ω ι ε α Call : Type}

/-- What the statements of a program do to a store. -/
structure Database (σ ω ε : Type) where
  /-- The effect of one row write. -/
  apply : σ → ω → σ
  /-- The checks deferred to commit, on the state as the committing session sees it and the
  writes it is about to publish. -/
  deferred : σ → List ω → Except ε Unit
  /-- What a caller gets when its connection is lost. -/
  lost : ε

/-- The state after a list of writes. -/
def Database.applyAll (D : Database σ ω ε) (s : σ) (rows : List ω) : σ :=
  rows.foldl D.apply s

section applyAll
variable (D : Database σ ω ε) (s : σ)

@[simp] theorem Database.applyAll_nil : D.applyAll s [] = s := rfl

@[simp] theorem Database.applyAll_cons (row : ω) (rows : List ω) :
    D.applyAll s (row :: rows) = D.applyAll (D.apply s row) rows := rfl

/-- The writes of two lists are made one after the other. -/
theorem Database.applyAll_append (rows rows' : List ω) :
    D.applyAll s (rows ++ rows') = D.applyAll (D.applyAll s rows) rows' :=
  List.foldl_append

end applyAll

/-- What a session saw at one of its statements: the state, and the lock it was granted if
the statement took one. -/
structure Reading (σ κ : Type) where
  key : Option κ
  state : σ

/-- Where a session's open transaction stands. -/
structure Standing (σ κ ω : Type) where
  /-- The row locks it holds. -/
  held : List (κ × LockMode) := []
  /-- Its writes that are not committed yet. -/
  pending : List ω := []
  /-- What it has read since it started, oldest first. -/
  log : List (Reading σ κ) := []

namespace Standing

/-- The state as the session sees it. -/
def view (D : Database σ ω ε) (f : Standing σ κ ω) (s : σ) : σ :=
  D.applyAll s f.pending

/-- After a plain read. -/
def saw (f : Standing σ κ ω) (v : σ) : Standing σ κ ω :=
  { f with log := f.log ++ [⟨none, v⟩] }

/-- After a lock was granted and the row was looked at. -/
def locked (f : Standing σ κ ω) (key : κ) (mode : LockMode) (v : σ) : Standing σ κ ω :=
  { f with held := (key, mode) :: f.held, log := f.log ++ [⟨some key, v⟩] }

/-- After a row write. -/
def wrote (f : Standing σ κ ω) (row : ω) : Standing σ κ ω :=
  { f with pending := f.pending ++ [row] }

/-- After the transaction ended. -/
def ended (f : Standing σ κ ω) : Standing σ κ ω :=
  { f with held := [], pending := [] }

/-- A session sees its own write on top of the rest. -/
theorem view_wrote (D : Database σ ω ε) (f : Standing σ κ ω) (row : ω) (s : σ) :
    (f.wrote row).view D s = D.apply (f.view D s) row :=
  D.applyAll_append s f.pending [row]

end Standing

/-- One client: what was asked for, what is left to do, and where it stands. -/
structure Session (σ κ ω ι ε α Call : Type) where
  call : Call
  program : Program σ κ ω ι ε α
  standing : Standing σ κ ω

/-- The committed state and everyone working on it. -/
structure World (σ κ ω ι ε α Call : Type) where
  db : σ
  sessions : List (Session σ κ ω ι ε α Call)

/-- What happens next. -/
inductive Event (ι Call : Type) where
  /-- A new client starts. -/
  | start (call : Call)
  /-- A session executes its next statement; `x` is what it reads from outside. -/
  | run (session : ℕ) (x : ι)
  /-- A session's connection is lost. -/
  | kill (session : ℕ)

/-! ## One statement -/

/-- The lock the next statement waits for. -/
def Program.wants : Program σ κ ω ι ε α → Option (κ × LockMode)
  | .lock key mode _ => some (key, mode)
  | _ => none

/-- The next statement of a session that has the lock it waits for: the committed state, the
rest of the program and the session's standing afterwards. -/
def Program.turn (D : Database σ ω ε) (x : ι) (s : σ) (f : Standing σ κ ω) :
    Program σ κ ω ι ε α → Option (σ × Program σ κ ω ι ε α × Standing σ κ ω)
  | .done _ => none
  | .input next => some (s, next x, f)
  | .query next => some (s, next (f.view D s), f.saw (f.view D s))
  | .lock key mode next => some (s, next (f.view D s), f.locked key mode (f.view D s))
  | .write row next => some (s, next, f.wrote row)
  | .instant row next => some (D.apply s row, next (f.view D (D.apply s row)), f)
  | .commit next =>
    match D.deferred (f.view D s) f.pending with
    | .ok () => some (f.view D s, next (.ok ()), f.ended)
    | .error e => some (s, next (.error e), f.ended)
  | .rollback next => some (s, next, f.ended)

/-! ## The pool -/

namespace World

/-- The locks held by the sessions other than the `i`-th. -/
def heldByOthers (w : World σ κ ω ι ε α Call) (i : ℕ) : List (κ × LockMode) :=
  (w.sessions.eraseIdx i).flatMap fun t => t.standing.held

/-- Whether a lock is compatible with those already held. -/
def compatible [DecidableEq κ] (held : List (κ × LockMode)) (wanted : κ × LockMode) : Bool :=
  held.all fun h => !(h.1 == wanted.1 && h.2.conflicts wanted.2)

/-- Whether the `i`-th session can be granted what its next statement waits for. -/
def grants [DecidableEq κ] (w : World σ κ ω ι ε α Call) (i : ℕ)
    (p : Program σ κ ω ι ε α) : Bool :=
  p.wants.all (compatible (w.heldByOthers i))

/-- One event.  A session that waits for a lock cannot run. -/
def step [DecidableEq κ] (D : Database σ ω ε) (program : Call → Program σ κ ω ι ε α)
    (w : World σ κ ω ι ε α Call) : Event ι Call → Option (World σ κ ω ι ε α Call)
  | .start call =>
    some { w with sessions := w.sessions ++ [⟨call, program call, {}⟩] }
  | .run i x =>
    w.sessions[i]?.bind fun t =>
      if w.grants i t.program then
        (t.program.turn D x w.db t.standing).map fun r =>
          { db := r.1, sessions := w.sessions.set i ⟨t.call, r.2.1, r.2.2⟩ }
      else none
  | .kill i =>
    w.sessions[i]?.map fun t =>
      { w with sessions := w.sessions.set i ⟨t.call, .done (.error D.lost), t.standing.ended⟩ }

/-- A run: every event was possible, and `admits` held of the world it happened in. -/
inductive Run [DecidableEq κ] (D : Database σ ω ε) (program : Call → Program σ κ ω ι ε α)
    (admits : World σ κ ω ι ε α Call → Event ι Call → Prop) :
    World σ κ ω ι ε α Call → World σ κ ω ι ε α Call → Prop
  | refl (w : World σ κ ω ι ε α Call) : Run D program admits w w
  | tail {w w' w'' : World σ κ ω ι ε α Call} {e : Event ι Call} :
      Run D program admits w w' → admits w' e → step D program w' e = some w'' →
      Run D program admits w w''

/-- A run can be continued. -/
theorem Run.trans [DecidableEq κ] {D : Database σ ω ε} {program : Call → Program σ κ ω ι ε α}
    {admits : World σ κ ω ι ε α Call → Event ι Call → Prop} {w w' w'' : World σ κ ω ι ε α Call}
    (h : Run D program admits w w') (h' : Run D program admits w' w'') :
    Run D program admits w w'' := by
  induction h' with
  | refl => exact h
  | tail _ he hs ih => exact ih.tail he hs

/-- Execute a list of events, passing over those that are not possible. -/
def attempt [DecidableEq κ] (D : Database σ ω ε) (program : Call → Program σ κ ω ι ε α) :
    World σ κ ω ι ε α Call → List (Event ι Call) → World σ κ ω ι ε α Call
  | w, [] => w
  | w, e :: rest => attempt D program ((w.step D program e).getD w) rest

/-- What is executed is a run. -/
theorem Run.attempt [DecidableEq κ] {D : Database σ ω ε} {program : Call → Program σ κ ω ι ε α}
    {admits : World σ κ ω ι ε α Call → Event ι Call → Prop} (hadmits : ∀ w e, admits w e)
    {w w' : World σ κ ω ι ε α Call} (h : Run D program admits w w')
    (events : List (Event ι Call)) : Run D program admits w (w'.attempt D program events) := by
  induction events generalizing w' with
  | nil => exact h
  | cons e rest ih =>
    cases hs : w'.step D program e with
    | none =>
      have hrest := ih h
      simpa [World.attempt, hs] using hrest
    | some w'' =>
      have hrest := ih (h.tail (hadmits w' e) hs)
      simpa [World.attempt, hs] using hrest

/-- Execute a list of events, passing over those that are not possible or fail a check. -/
def attemptWhere [DecidableEq κ] (D : Database σ ω ε) (program : Call → Program σ κ ω ι ε α)
    (check : World σ κ ω ι ε α Call → Event ι Call → Bool) :
    World σ κ ω ι ε α Call → List (Event ι Call) → World σ κ ω ι ε α Call
  | w, [] => w
  | w, e :: rest =>
    attemptWhere D program check (if check w e then (w.step D program e).getD w else w) rest

/-- What is executed is a run of admitted events. -/
theorem Run.attemptWhere [DecidableEq κ] {D : Database σ ω ε}
    {program : Call → Program σ κ ω ι ε α}
    {admits : World σ κ ω ι ε α Call → Event ι Call → Prop}
    {check : World σ κ ω ι ε α Call → Event ι Call → Bool}
    (hcheck : ∀ w e, check w e = true → admits w e) {w w' : World σ κ ω ι ε α Call}
    (h : Run D program admits w w') (events : List (Event ι Call)) :
    Run D program admits w (w'.attemptWhere D program check events) := by
  induction events generalizing w' with
  | nil => exact h
  | cons e rest ih =>
    have hnext : Run D program admits w
        (if check w' e then (w'.step D program e).getD w' else w') := by
      split
      case isFalse => exact h
      case isTrue hc =>
        cases hs : w'.step D program e with
        | none => exact h
        | some w'' => exact h.tail (hcheck w' e hc) hs
    exact ih hnext

end World

end Transactions
