import Tessera.Transactions.Logic

/-!
# How far a session has come

Between two points of one transaction a session has taken locks, made writes and read rows,
while the others have moved the committed state on.

* `Later` — one point of a transaction comes after another;
* `Progress` — what has changed since an earlier point, as a record;
* `Aborted` — what is still known once a statement has failed;
* `Always` — what holds now and whatever the others do next.
-/

namespace Transactions

variable {σ κ ω ι ε α β : Type}

/-- One point of a transaction, and a later one. -/
structure Later (R : Discipline σ κ ω) (f : Standing σ κ ω) (s : σ) (f' : Standing σ κ ω)
    (s' : σ) : Prop where
  rely : Rely R f.held s s'
  kept : f.held ⊆ f'.held

/-- What a session has done since it stood at `f` in the committed state `s`: the locks it
has taken, the rows it has written, and the rows it has looked at under a lock. -/
structure Progress (R : Discipline σ κ ω) (f : Standing σ κ ω) (s : σ)
    (locks : List (κ × LockMode)) (rows : List ω) (L : Reading σ κ → Prop)
    (f' : Standing σ κ ω) (s' : σ) : Prop extends Later R f s f' s' where
  got : locks ⊆ f'.held
  only : f'.held ⊆ locks ++ f.held
  pending : f'.pending = f.pending ++ rows
  log : ∀ e ∈ f'.log, e ∈ f.log ∨ e.key = none ∨ L e

/-- What is known once a statement has failed, and its transaction can only be rolled back. -/
structure Aborted (R : Discipline σ κ ω) (f : Standing σ κ ω) (s : σ)
    (L : Reading σ κ → Prop) (f' : Standing σ κ ω) (s' : σ) : Prop
    extends Later R f s f' s' where
  log : ∀ e ∈ f'.log, e ∈ f.log ∨ e.key = none ∨ L e

/-- True now, and whatever the others do next. -/
def Always (R : Discipline σ κ ω) (held : List (κ × LockMode)) (s : σ) (P : σ → Prop) : Prop :=
  ∀ s', Rely R held s s' → P s'

section
variable {D : Database σ ω ε} {R : Discipline σ κ ω} {f f' f'' : Standing σ κ ω} {s s' s'' : σ}
variable {locks locks' : List (κ × LockMode)} {rows rows' : List ω} {L : Reading σ κ → Prop}

namespace Later

/-- A session stands where it stood when nothing has happened. -/
theorem refl (hR : R.Regular) (hinv : R.inv s) : Later R f s f s :=
  ⟨.refl hR hinv _, List.Subset.refl _⟩

/-- Two waits one after the other. -/
theorem trans (h : Later R f s f' s') (hR : R.Regular) (h' : Later R f' s' f'' s'') :
    Later R f s f'' s'' :=
  ⟨h.rely.step hR h.kept h'.rely, List.Subset.trans h.kept h'.kept⟩

/-- The others have moved on. -/
theorem wait (h : Later R f s f' s') (hR : R.Regular) (hr : Rely R f'.held s' s'') :
    Later R f s f' s'' :=
  ⟨h.rely.step hR h.kept hr, h.kept⟩

end Later

namespace Progress

/-- A session has made no progress at first. -/
theorem refl (hR : R.Regular) (hinv : R.inv s) (L : Reading σ κ → Prop) :
    Progress R f s [] [] L f s :=
  ⟨.refl hR hinv, List.nil_subset _, List.Subset.refl _, by simp, fun _ he => .inl he⟩

/-- Where a session stands, counted from the start of its transaction. -/
theorem here (hR : R.Regular) (hinv : R.inv s) (hL : ∀ e, L e) :
    Progress R {} s f.held f.pending L f s :=
  ⟨⟨.refl hR hinv _, List.nil_subset _⟩, List.Subset.refl _, by simp, rfl,
    fun e _ => .inr (.inr (hL e))⟩

/-- The others have moved on. -/
theorem wait (P : Progress R f s locks rows L f' s') (hR : R.Regular)
    (h : Rely R f'.held s' s'') : Progress R f s locks rows L f' s'' :=
  { P with toLater := P.toLater.wait hR h }

/-- One more plain read. -/
theorem saw (P : Progress R f s locks rows L f' s') (v : σ) :
    Progress R f s locks rows L (f'.saw v) s' :=
  { P with
    log := fun e he => by
      rcases List.mem_append.1 he with he | he
      · exact P.log e he
      · rw [List.mem_singleton.1 he]
        exact .inr (.inl rfl) }

/-- One more lock. -/
theorem locked (P : Progress R f s locks rows L f' s') {k : κ} {m : LockMode} {v : σ}
    (hL : L ⟨some k, v⟩) :
    Progress R f s ((k, m) :: locks) rows L (f'.locked k m v) s' where
  toLater := ⟨P.rely, List.Subset.trans P.kept (List.subset_cons_self _ _)⟩
  got := List.cons_subset_cons _ P.got
  only := List.cons_subset_cons _ P.only
  pending := P.pending
  log e he := by
    rcases List.mem_append.1 he with he | he
    · exact P.log e he
    · rw [List.mem_singleton.1 he]
      exact .inr (.inr hL)

/-- One more write. -/
theorem wrote (P : Progress R f s locks rows L f' s') (row : ω) :
    Progress R f s locks (rows ++ [row]) L (f'.wrote row) s' :=
  { P with
    pending := by
      change f'.pending ++ [row] = _
      rw [P.pending, List.append_assoc] }

/-- The progress of two parts one after the other. -/
theorem trans (P : Progress R f s locks rows L f' s') (hR : R.Regular)
    (P' : Progress R f' s' locks' rows' L f'' s'') :
    Progress R f s (locks' ++ locks) (rows ++ rows') L f'' s'' where
  toLater := P.toLater.trans hR P'.toLater
  got := List.append_subset.2 ⟨P'.got, List.Subset.trans P.got P'.kept⟩
  only := by
    rw [List.append_assoc]
    exact List.Subset.trans P'.only
      (List.append_subset.2 ⟨List.subset_append_left _ _,
        List.Subset.trans P.only (List.subset_append_right _ _)⟩)
  pending := by rw [P'.pending, P.pending, List.append_assoc]
  log e he := by
    rcases P'.log e he with he | he
    · exact P.log e he
    · exact .inr he

/-- The state as the session sees it: the rows written since, on top of what it saw. -/
theorem view (P : Progress R f s locks rows L f' s') :
    f'.view D s'' = D.applyAll (f.view D s'') rows := by
  unfold Standing.view
  rw [P.pending, Database.applyAll_append]

/-- Less may be said about what was read. -/
theorem weaken {L' : Reading σ κ → Prop} (P : Progress R f s locks rows L f' s')
    (h : ∀ e, L e → L' e) : Progress R f s locks rows L' f' s' :=
  { P with log := fun e he => (P.log e he).imp_right (Or.imp_right (h e)) }

/-- Progress that is given up. -/
theorem aborted (P : Progress R f s locks rows L f' s') : Aborted R f s L f' s' :=
  ⟨P.toLater, P.log⟩

/-- A later part of the transaction has failed. -/
theorem abort (P : Progress R f s locks rows L f' s') (hR : R.Regular)
    (h : Aborted R f' s' L f'' s'') : Aborted R f s L f'' s'' where
  toLater := P.toLater.trans hR h.toLater
  log e he := by
    rcases h.log e he with he | he
    · exact P.log e he
    · exact .inr he

end Progress

/-- A session that has given up may wait. -/
theorem Aborted.wait (h : Aborted R f s L f' s') (hR : R.Regular)
    (hr : Rely R f'.held s' s'') : Aborted R f s L f' s'' :=
  { h with toLater := h.toLater.wait hR hr }

/-- Less may be said about what was read. -/
theorem Aborted.weaken {L' : Reading σ κ → Prop} (h : Aborted R f s L f' s')
    (hL : ∀ e, L e → L' e) : Aborted R f s L' f' s' :=
  { h with log := fun e he => (h.log e he).imp_right (Or.imp_right (hL e)) }

namespace Always

variable {held held' : List (κ × LockMode)} {P P' : σ → Prop}

/-- What holds always holds now. -/
theorem now (h : Always R held s P) (hR : R.Regular) (hinv : R.inv s) : P s :=
  h s (.refl hR hinv held)

/-- It holds always after a wait, too. -/
theorem wait (h : Always R held s P) (hR : R.Regular) (hr : Rely R held s s') :
    Always R held s' P :=
  fun s'' hr' => h s'' (hr.trans hR hr')

/-- With more locks the others can do less. -/
theorem more (h : Always R held s P) (hheld : held ⊆ held') : Always R held' s P :=
  fun s' hr => h s' (hr.mono hheld)

/-- So does everything that follows from it. -/
theorem imp (h : Always R held s P) (hP : ∀ s', P s' → P' s') : Always R held s P' :=
  fun s' hr => hP s' (h s' hr)

end Always

end

end Transactions
