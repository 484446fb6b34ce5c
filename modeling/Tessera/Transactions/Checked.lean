import Tessera.Transactions.Layers
import Tessera.Transactions.Within

/-!
# Writes that are checked first

A constraint on single rows is kept when every write is checked against the row that it changes:
the client locks the row, looks at it and writes at once.  What it has seen is still so when the
write is published, since the lock is held until then.

* `Program.Checked` — every write is permitted by what has just been seen under a lock;
* the rules for the blocks of statements;
* `wp_of_checked` — such a program publishes nothing that breaks the constraint.
-/

namespace Transactions

variable {σ κ ω ι ε α β : Type}

/-- A lock that has just been granted, with the state as it was then seen. -/
abbrev Sighting (σ κ : Type) := Option ((κ × LockMode) × σ)

namespace Program

/-- Every write is permitted by what has just been seen under a lock, if by anything, and every
draw satisfies `Q`. -/
def Checked (P : Sighting σ κ → ω → Prop) (Q : ω → Prop) :
    Program σ κ ω ι ε α → Sighting σ κ → Prop
  | .done _, _ => True
  | .input next, _ => ∀ x, (next x).Checked P Q none
  | .query next, _ => ∀ s, (next s).Checked P Q none
  | .lock key mode next, _ => ∀ s, (next s).Checked P Q (some ((key, mode), s))
  | .write row next, seen => P seen row ∧ next.Checked P Q none
  | .instant row next, _ => Q row ∧ ∀ s, (next s).Checked P Q none
  | .commit next, _ => ∀ r, (next r).Checked P Q none
  | .rollback next, _ => next.Checked P Q none

namespace Checked
variable {P : Sighting σ κ → ω → Prop} {Q : ω → Prop} {seen : Sighting σ κ}

/-- Having seen more does no harm. -/
theorem of_none (hP : ∀ seen w, P none w → P seen w) {p : Program σ κ ω ι ε α}
    (h : p.Checked P Q none) : p.Checked P Q seen := by
  cases p with
  | write row next => exact ⟨hP seen row h.1, h.2⟩
  | _ => exact h

/-- Writes that are permitted whatever has been seen. -/
theorem of_within {p : Program σ κ ω ι ε α} (hP : ∀ seen w, P none w → P seen w)
    (h : p.Within (P none) Q) : p.Checked P Q seen := by
  refine of_none hP ?_
  induction p with
  | done r => trivial
  | input next ih => exact fun x => ih x (h x)
  | query next ih => exact fun s => ih s (h s)
  | lock key mode next ih => exact fun s => (ih s (h s)).of_none hP
  | write row next ih => exact ⟨h.1, ih h.2⟩
  | instant row next ih => exact ⟨h.1, fun s => ih s (h.2 s)⟩
  | commit next _ => exact absurd h id
  | rollback next _ => exact absurd h id

/-- Nor do writes need a check that are permitted whatever has been seen. -/
theorem of_writes {p : Program σ κ ω ι ε α} {needs : ω → List (κ × LockMode)}
    (hP : ∀ seen w, P none w → P seen w) :
    ∀ {held : List (κ × LockMode)} {seen : Sighting σ κ}, p.Writes needs (P none) Q held →
      p.Checked P Q seen := by
  induction p with
  | done r => exact fun _ => trivial
  | input next ih => exact fun h x => ih x (h x)
  | query next ih => exact fun h s => ih s (h s)
  | lock key mode next ih => exact fun h s => ih s (h s)
  | write row next ih => exact fun h => ⟨hP _ row h.1, ih h.2.2⟩
  | instant row next ih => exact fun h => ⟨h.1, fun s => ih s (h.2 s)⟩
  | commit next ih => exact fun h r => ih r (h r)
  | rollback next ih => exact fun h => ih h

/-- A handler starts without a sighting, as a commit may have come before it. -/
theorem handle (hP : ∀ seen w, P none w → P seen w) {p : Program σ κ ω ι ε α}
    {k : Except ε α → Program σ κ ω ι ε β} (hk : ∀ r, (k r).Checked P Q none) :
    ∀ {seen : Sighting σ κ}, p.Checked P Q seen → (p.handle k).Checked P Q seen := by
  induction p with
  | done r => exact fun _ => (hk r).of_none hP
  | input next ih => exact fun h x => ih x (h x)
  | query next ih => exact fun h s => ih s (h s)
  | lock key mode next ih => exact fun h s => ih s (h s)
  | write row next ih => exact fun h => ⟨h.1, ih h.2⟩
  | instant row next ih => exact fun h => ⟨h.1, fun s => ih s (h.2 s)⟩
  | commit next ih => exact fun h r => ih r (h r)
  | rollback next ih => exact fun h => ih h

/-- Two programs one after the other; the second starts without a sighting. -/
theorem bind (hP : ∀ seen w, P none w → P seen w) {p : Program σ κ ω ι ε α}
    {k : α → Program σ κ ω ι ε β} (h : p.Checked P Q seen) (hk : ∀ a, (k a).Checked P Q none) :
    (p >>= k).Checked P Q seen := by
  refine handle hP (fun r => ?_) h
  cases r with
  | ok a => exact hk a
  | error e => trivial

/-- A result that is changed changes no write. -/
theorem map (hP : ∀ seen w, P none w → P seen w) {g : α → β} {p : Program σ κ ω ι ε α}
    (h : p.Checked P Q seen) : (g <$> p).Checked P Q seen :=
  h.bind hP fun _ => trivial

/-- A program with a handler for its errors. -/
theorem tryCatch (hP : ∀ seen w, P none w → P seen w) {p : Program σ κ ω ι ε α}
    {k : ε → Program σ κ ω ι ε α} (h : p.Checked P Q seen) (hk : ∀ e, (k e).Checked P Q none) :
    (MonadExcept.tryCatch p k).Checked P Q seen := by
  refine handle hP (fun r => ?_) h
  cases r with
  | ok a => trivial
  | error e => exact hk e

/-- A transaction checks what it writes if its body does. -/
theorem transaction (hP : ∀ seen w, P none w → P seen w) {body : Program σ κ ω ι ε α}
    (h : body.Checked P Q seen) : (Program.transaction body).Checked P Q seen := by
  refine handle hP (fun r => ?_) h
  cases r with
  | ok a => exact fun r' => by cases r' <;> trivial
  | error e => trivial

/-- So does a loop over rows. -/
theorem forEach (hP : ∀ seen w, P none w → P seen w) {body : α → Program σ κ ω ι ε Unit}
    {rows : List α} (h : ∀ a ∈ rows, (body a).Checked P Q none) :
    (Program.forEach body rows).Checked P Q seen := by
  refine of_none hP ?_
  induction rows with
  | nil => trivial
  | cons a rows ih =>
    obtain ⟨ha, hrest⟩ := List.forall_mem_cons.1 h
    exact ha.bind hP fun _ => ih hrest

/-! ## Statements that leave the sighting alone -/

/-- A condition is evaluated without losing sight of the locked row. -/
theorem bind_ensure {condition : Bool} {e : ε} {k : Unit → Program σ κ ω ι ε α}
    (hk : condition = true → (k ()).Checked P Q seen) :
    (Program.ensure condition e >>= k).Checked P Q seen := by
  unfold Program.ensure
  cases condition with
  | true => exact hk rfl
  | false => trivial

/-- So is a computation that may fail. -/
theorem bind_check {r : Except ε α} {k : α → Program σ κ ω ι ε β}
    (hk : ∀ a, r = .ok a → (k a).Checked P Q seen) :
    (Program.check r >>= k).Checked P Q seen := by
  cases r with
  | ok a => exact hk a rfl
  | error e => trivial

/-- What follows `SELECT … FOR UPDATE` has seen the row under its lock. -/
theorem bind_selectForLock {mode : LockMode} {key : α → κ} {view : σ → Option α}
    {k : Option α → Program σ κ ω ι ε β} (hnone : ∀ seen, (k none).Checked P Q seen)
    (hsome : ∀ s s' row row', view s = some row → view s' = some row' →
      (k (some row')).Checked P Q (some ((key row, mode), s'))) :
    (Program.selectForLock mode key view >>= k).Checked P Q seen := by
  unfold Program.selectForLock
  rw [Writes.bind_select_assoc]
  intro s
  show Checked P Q (_ >>= k) none
  cases hrow : view s with
  | none => exact hnone none
  | some row =>
    intro s'
    show Checked P Q (k (view s')) (some ((key row, mode), s'))
    cases hagain : view s' with
    | none => exact hnone _
    | some row' => exact hsome s s' row row' hrow hagain

end Checked

end Program

/-! ## Adequacy -/

/-- A constraint that permitted writes keep. -/
structure Upholds (D : Database σ ω ε) (R : Discipline σ κ ω) (P : Sighting σ κ → ω → Prop)
    (inv : σ → Prop) : Prop where
  holds : ∀ {s}, R.inv s → inv s
  congr : ∀ {k m s s'} (row : ω), R.same k m s s' → R.same k m (D.apply s row) (D.apply s' row)
  write : ∀ {seen s row}, inv s → P seen row →
    (∀ h v, seen = some (h, v) → R.same h.1 h.2 v s) → inv (D.apply s row)

section
variable {D : Database σ ω ε} {R : Discipline σ κ ω} {P : Sighting σ κ → ω → Prop} {Q : ω → Prop}
variable {inv : σ → Prop}

/-- Two states that agree on what a lock protects agree on it after the same writes. -/
theorem Upholds.congrAll (h : Upholds D R P inv) {k : κ} {m : LockMode} (rows : List ω) :
    ∀ {s s' : σ}, R.same k m s s' → R.same k m (D.applyAll s rows) (D.applyAll s' rows) := by
  induction rows with
  | nil => exact fun hs => hs
  | cons row rows ih => exact fun hs => ih (h.congr row hs)

/-- What a session has seen under a lock it still holds, its own writes taken into account. -/
def Sighting.Valid (D : Database σ ω ε) (R : Discipline σ κ ω) (seen : Sighting σ κ)
    (f : Standing σ κ ω) (s : σ) : Prop :=
  ∀ h v, seen = some (h, v) → Always R f.held s fun s' => R.same h.1 h.2 v (f.view D s')

/-- Nothing seen is nothing to keep. -/
theorem Sighting.valid_none {f : Standing σ κ ω} {s : σ} :
    Sighting.Valid D R none f s := by
  intro h v hseen
  cases hseen

/-- What a checked program publishes keeps the constraint. -/
theorem wp_of_checked (hL : Lax D R (Terms.committing fun s rows => inv (D.applyAll s rows)) Q)
    (hU : Upholds D R P inv) {p : Program σ κ ω ι ε α} :
    ∀ {f : Standing σ κ ω} {s : σ} {seen : Sighting σ κ}, p.Checked P Q seen →
      seen.Valid D R f s → (Always R f.held s fun s' => inv (f.view D s')) →
      wp D R (Terms.committing fun s rows => inv (D.applyAll s rows)) p f s fun _ _ _ => True := by
  have hR := hL.regular
  have hended : ∀ {f : Standing σ κ ω} {s : σ}, Always R f.ended.held s fun s' =>
      inv (f.ended.view D s') := fun {_ _} _ hs' => hU.holds hs'.inv
  induction p with
  | done r => exact fun _ _ _ => trivial
  | input next ih => exact fun h _ hf x => ih x (h x) Sighting.valid_none hf
  | query next ih =>
    intro f s seen h _ hf s' hs'
    exact ih _ (h _) Sighting.valid_none (hf.wait hR hs')
  | lock key mode next ih =>
    intro f s seen h _ hf s' hs'
    refine ⟨trivial, fun _ => ih _ (h _) ?_ ((hf.wait hR hs').more (List.subset_cons_self _ _))⟩
    intro k v hseen s'' hs''
    cases hseen
    exact hU.congrAll f.pending (hs''.same _ List.mem_cons_self)
  | write row next ih =>
    intro f s seen h hseen hf
    refine ⟨by rw [hL.needs]; exact List.nil_subset _, fun s' hs' _ => ⟨hL.tidy _, ?_⟩⟩
    refine ih h.2 Sighting.valid_none fun s'' hs'' => ?_
    have hrely := hs'.trans hR hs''
    show inv ((f.wrote row).view D s'')
    rw [f.view_wrote D row s'']
    exact hU.write (hf s'' hrely) h.1 fun k v hk => hseen k v hk s'' hrely
  | instant row next ih =>
    intro f s seen h _ hf s' hs'
    obtain ⟨hdraws, hrely⟩ := hL.draws f.held hs'.inv h.1
    exact ⟨hdraws, ih _ (h.2 _) Sighting.valid_none (hf.wait hR (hs'.trans hR hrely))⟩
  | commit next ih =>
    intro f s seen h _ hf s' hs' _
    exact ⟨fun _ => ⟨hf s' hs', ih _ (h _) Sighting.valid_none hended⟩,
      fun e _ => ih _ (h _) Sighting.valid_none hended⟩
  | rollback next ih => exact fun h _ _ s' _ => ih h Sighting.valid_none hended

end

end Transactions
