import Tessera.Transactions.Logic

/-!
# Programs whose writes are all of one kind

Much of what a client does matters to an invariant only through the kind of row it writes, not
through the state it writes it in.  For such a program the precondition follows from its tree.

* `Program.Writes` — every write is of the kind, and is made under its locks;
* the rules for the blocks of statements;
* `Clerk`, `wp_of_writes` — terms that allow such writes in every state.
-/

namespace Transactions

variable {σ κ ω ι ε α β : Type}

namespace Program

/-- Every write of the program satisfies `P` and is made under the locks it needs, and every
draw satisfies `Q`. -/
def Writes (needs : ω → List (κ × LockMode)) (P Q : ω → Prop) :
    Program σ κ ω ι ε α → List (κ × LockMode) → Prop
  | .done _, _ => True
  | .input next, held => ∀ x, (next x).Writes needs P Q held
  | .query next, held => ∀ s, (next s).Writes needs P Q held
  | .lock key mode next, held => ∀ s, (next s).Writes needs P Q ((key, mode) :: held)
  | .write row next, held => P row ∧ needs row ⊆ held ∧ next.Writes needs P Q held
  | .instant row next, held => Q row ∧ ∀ s, (next s).Writes needs P Q held
  | .commit next, _ => ∀ r, (next r).Writes needs P Q []
  | .rollback next, _ => next.Writes needs P Q []

namespace Writes
variable {needs : ω → List (κ × LockMode)} {P Q : ω → Prop} {held held' : List (κ × LockMode)}

/-- More locks do no harm. -/
theorem mono {p : Program σ κ ω ι ε α} : ∀ {held held' : List (κ × LockMode)}, held ⊆ held' →
    p.Writes needs P Q held → p.Writes needs P Q held' := by
  induction p with
  | done r => exact fun _ h => h
  | input next ih => exact fun hle h x => ih x hle (h x)
  | query next ih => exact fun hle h s => ih s hle (h s)
  | lock key mode next ih => exact fun hle h s => ih s (List.cons_subset_cons _ hle) (h s)
  | write row next ih => exact fun hle h => ⟨h.1, List.Subset.trans h.2.1 hle, ih hle h.2.2⟩
  | instant row next ih => exact fun hle h => ⟨h.1, fun s => ih s hle (h.2 s)⟩
  | commit next _ => exact fun _ h => h
  | rollback next _ => exact fun _ h => h

/-- A program that takes its own locks needs none before. -/
theorem of_nil {p : Program σ κ ω ι ε α} (h : p.Writes needs P Q []) :
    p.Writes needs P Q held :=
  h.mono (List.nil_subset held)

/-- A handler starts without locks, as a rollback may have come before it. -/
theorem handle {p : Program σ κ ω ι ε α} {k : Except ε α → Program σ κ ω ι ε β}
    (hk : ∀ r, (k r).Writes needs P Q []) : ∀ {held : List (κ × LockMode)},
    p.Writes needs P Q held → (p.handle k).Writes needs P Q held := by
  induction p with
  | done r => exact fun _ => (hk r).of_nil
  | input next ih => exact fun h x => ih x (h x)
  | query next ih => exact fun h s => ih s (h s)
  | lock key mode next ih => exact fun h s => ih s (h s)
  | write row next ih => exact fun h => ⟨h.1, h.2.1, ih h.2.2⟩
  | instant row next ih => exact fun h => ⟨h.1, fun s => ih s (h.2 s)⟩
  | commit next ih => exact fun h r => ih r (h r)
  | rollback next ih => exact fun h => ih h

/-- Two programs one after the other; the second takes its own locks. -/
theorem bind {p : Program σ κ ω ι ε α} {k : α → Program σ κ ω ι ε β}
    (h : p.Writes needs P Q held) (hk : ∀ a, (k a).Writes needs P Q []) :
    (p >>= k).Writes needs P Q held := by
  refine handle (fun r => ?_) h
  cases r with
  | ok a => exact hk a
  | error e => trivial

/-- A result that is changed changes no write. -/
theorem map {g : α → β} {p : Program σ κ ω ι ε α} (h : p.Writes needs P Q held) :
    (g <$> p).Writes needs P Q held :=
  h.bind fun _ => trivial

/-- A program with a handler for its errors. -/
theorem tryCatch {p : Program σ κ ω ι ε α} {k : ε → Program σ κ ω ι ε α}
    (h : p.Writes needs P Q held) (hk : ∀ e, (k e).Writes needs P Q []) :
    (MonadExcept.tryCatch p k).Writes needs P Q held := by
  refine handle (fun r => ?_) h
  cases r with
  | ok a => trivial
  | error e => exact hk e

/-- A transaction makes the writes of its body. -/
theorem transaction {body : Program σ κ ω ι ε α} (h : body.Writes needs P Q held) :
    (Program.transaction body).Writes needs P Q held := by
  refine handle (fun r => ?_) h
  cases r with
  | ok a => exact fun r' => by cases r' <;> trivial
  | error e => trivial

theorem ensure {condition : Bool} {e : ε} :
    (Program.ensure condition e : Program σ κ ω ι ε Unit).Writes needs P Q held := by
  unfold Program.ensure
  split <;> trivial

/-- The clock or an id before a program. -/
theorem bind_read {k : ι → Program σ κ ω ι ε β} (hk : ∀ x, (k x).Writes needs P Q held) :
    ((Program.read : Program σ κ ω ι ε ι) >>= k).Writes needs P Q held :=
  hk

/-- What follows a lock has it. -/
theorem bind_acquire {key : κ} {mode : LockMode} {view : σ → α} {k : α → Program σ κ ω ι ε β}
    (hk : ∀ s, (k (view s)).Writes needs P Q ((key, mode) :: held)) :
    (Program.acquire key mode view >>= k).Writes needs P Q held :=
  hk

/-- A write of the kind, under its locks. -/
theorem put {row : ω} (hP : P row) (hneeds : needs row ⊆ held) :
    (Program.put row : Program σ κ ω ι ε Unit).Writes needs P Q held :=
  ⟨hP, hneeds, trivial⟩

theorem selectForLock {mode : LockMode} {key : α → κ} {view : σ → Option α} :
    (Program.selectForLock mode key view : Program σ κ ω ι ε (Option α)).Writes needs P Q
      held := by
  refine bind (fun _ => trivial) fun found => ?_
  cases found with
  | none => trivial
  | some row => exact fun _ => trivial

/-- A read before a program. -/
theorem bind_select {view : σ → α} {k : α → Program σ κ ω ι ε β}
    (h : ∀ s, (k (view s)).Writes needs P Q held) :
    (Program.select view >>= k).Writes needs P Q held :=
  fun s => h s

/-- A read stays the first step when its program continues. -/
theorem bind_select_assoc {view : σ → α} {g : α → Program σ κ ω ι ε β}
    {γ : Type} {k : β → Program σ κ ω ι ε γ} :
    ((Program.select view >>= g) >>= k : Program σ κ ω ι ε γ) =
      Program.select view >>= fun a => g a >>= k :=
  rfl

/-- What follows `SELECT … FOR UPDATE` has the lock, if every row found has the same key. -/
theorem bind_selectForLock {mode : LockMode} {key : α → κ} (k₀ : κ) {view : σ → Option α}
    {k : Option α → Program σ κ ω ι ε β}
    (hkey : ∀ s row, view s = some row → key row = k₀)
    (hnone : (k none).Writes needs P Q [])
    (hsome : ∀ s row, view s = some row → (k (some row)).Writes needs P Q [(k₀, mode)]) :
    (Program.selectForLock mode key view >>= k).Writes needs P Q held := by
  unfold Program.selectForLock
  rw [bind_select_assoc]
  refine bind_select fun s => ?_
  cases hrow : view s with
  | none => exact hnone.of_nil
  | some row =>
    intro s'
    change Writes needs P Q (k (view s')) ((key row, mode) :: held)
    rw [hkey s row hrow]
    cases hagain : view s' with
    | none => exact hnone.of_nil
    | some row' => exact (hsome s' row' hagain).mono (List.cons_subset_cons _ (List.nil_subset _))

/-- `UPDATE … WHERE` of one row locks the row that it writes. -/
theorem updateRow {key : α → κ} (k₀ : κ) {view : σ → Option α} {change : α → ω}
    (hkey : ∀ s row, view s = some row → key row = k₀)
    (hchange : ∀ s row, view s = some row → P (change row) ∧
      needs (change row) ⊆ [(k₀, .exclusive)]) :
    (Program.updateRow key view change : Program σ κ ω ι ε ℕ).Writes needs P Q held :=
  bind_selectForLock k₀ hkey trivial fun s row hrow =>
    bind (put (hchange s row hrow).1 (hchange s row hrow).2) fun _ => trivial

/-- `UPDATE … WHERE` of several rows locks each row before it writes it. -/
theorem updateEach {key : α → κ} {again : α → σ → Option α} {change : α → ω} {rows : List α}
    (hchange : ∀ row s now, again row s = some now → P (change now) ∧
      needs (change now) ⊆ [(key row, .exclusive)]) :
    (Program.updateEach key again change rows : Program σ κ ω ι ε Unit).Writes needs P Q
      held := by
  induction rows generalizing held with
  | nil => trivial
  | cons row rows ih =>
    unfold Program.updateEach
    refine bind_acquire fun s => ?_
    cases hnow : again row s with
    | none => exact ih
    | some now =>
      obtain ⟨hP, hneeds⟩ := hchange row s now hnow
      exact bind (put hP (List.Subset.trans hneeds
        (List.cons_subset_cons _ (List.nil_subset _)))) fun _ => ih

end Writes

end Program

/-! ## Adequacy -/

/-- Terms that allow writes of one kind in every state. -/
structure Clerk (D : Database σ ω ε) (R : Discipline σ κ ω) (T : Terms σ κ ω)
    (needs : ω → List (κ × LockMode)) (P Q : ω → Prop) : Prop where
  guard : ∀ f k s, T.guard f k s
  needs : ∀ w, R.needs w ⊆ needs w
  tidy : ∀ {s w}, P w → R.tidy s → R.tidy (D.apply s w)
  commits : ∀ {s rows}, R.inv s → (∀ w ∈ rows, P w) → T.commits s rows
  draws : ∀ {s row}, R.inv s → Q row → T.draws s row

section
variable {D : Database σ ω ε} {R : Discipline σ κ ω} {T : Terms σ κ ω}
variable {needs : ω → List (κ × LockMode)} {P Q : ω → Prop}

/-- The precondition of a program whose writes are all of the kind. -/
theorem wp_of_writes (hC : Clerk D R T needs P Q) {p : Program σ κ ω ι ε α} :
    ∀ {f : Standing σ κ ω} {s : σ}, p.Writes needs P Q f.held → (∀ w ∈ f.pending, P w) →
    wp D R T p f s fun _ f' _ => ∀ w ∈ f'.pending, P w := by
  have hnil : ∀ w ∈ ([] : List ω), P w := fun _ h => absurd h List.not_mem_nil
  induction p with
  | done r => exact fun _ hf => hf
  | input next ih => exact fun h hf x => ih x (h x) hf
  | query next ih => exact fun h hf s' _ => ih _ (h _) hf
  | lock key mode next ih => exact fun h hf s' _ => ⟨hC.guard _ _ _, fun _ => ih _ (h _) hf⟩
  | write row next ih =>
    intro f s h hf
    refine ⟨List.Subset.trans (hC.needs row) h.2.1, fun s' _ ht => ⟨?_, ih h.2.2 fun w hw => ?_⟩⟩
    · rw [f.view_wrote D row s']
      exact hC.tidy h.1 ht
    · rcases List.mem_append.1 hw with hw | hw
      · exact hf w hw
      · exact List.mem_singleton.1 hw ▸ h.1
  | instant row next ih =>
    exact fun h hf s' hs' => ⟨hC.draws hs'.inv h.1, ih _ (h.2 _) hf⟩
  | commit next ih =>
    exact fun h hf s' hs' _ => ⟨fun _ => ⟨hC.commits hs'.inv hf, ih _ (h _) hnil⟩,
      fun e _ => ih _ (h _) hnil⟩
  | rollback next ih => exact fun h _ s' _ => ih h hnil

end

end Transactions
