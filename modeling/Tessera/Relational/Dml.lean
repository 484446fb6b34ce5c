import Tessera.Relational.Table

/-!
# Statements on tables with constraints

A statement inserts, replaces or deletes one row; the constraints and the triggers of the table have
their say.

* `Change` — a statement;
* `Rules` — the constraints and the triggers of a table; `Rules.change` — what a statement does;
* `Rules.Allowed` — what is true of a statement that succeeds;
* `Rules.Lawful.forall_row`, `.pairwise`, `.key_kept`, `.appends` — what the constraints keep.
-/

namespace Relational

/-- One row of a table is inserted, replaced or deleted. -/
inductive Change (κ ρ : Type)
  | insert (row : ρ)
  | update (key : κ) (row : ρ)
  | delete (key : κ)
  deriving DecidableEq

/-- The row that a statement looks for. -/
def Change.target {κ ρ : Type} : Change κ ρ → Option κ
  | .insert _ => none
  | .update key _ | .delete key => some key

/-- The constraints and the triggers of a table, in a database with states `σ`. -/
structure Rules (σ κ ρ ε : Type) where
  /-- The primary key. -/
  key : ρ → κ
  rows : σ → List ρ
  put : σ → List ρ → σ
  /-- The `BEFORE` triggers: the row that goes and the row that comes. -/
  before : σ → Option ρ → Option ρ → Except ε Unit
  /-- The types of the columns and the `CHECK` constraints. -/
  check : ρ → Except ε Unit
  /-- The unique indexes: the row that comes, beside another one. -/
  unique : ρ → ρ → Except ε Unit
  /-- The foreign keys of the row that comes. -/
  references : σ → ρ → Except ε Unit
  /-- The foreign keys of other rows that may have named the row that goes. -/
  referenced : σ → κ → Except ε Unit
  /-- The `AFTER INSERT` triggers. -/
  after : σ → ρ → Except ε σ

variable {σ κ ρ ε : Type} [DecidableEq κ]

/-- Every row of a list passes. -/
def passAll (check : ρ → Except ε Unit) : List ρ → Except ε Unit
  | [] => .ok ()
  | row :: rows =>
    match check row with
    | .ok () => passAll check rows
    | .error e => .error e

/-- What a statement does.  An `UPDATE` or a `DELETE` that finds no row does nothing. -/
def Rules.change (R : Rules σ κ ρ ε) (s : σ) : Change κ ρ → Except ε σ
  | .insert row => do
    R.before s none (some row)
    R.check row
    passAll (R.unique row) (R.rows s)
    let s' := R.put s (R.rows s ++ [row])
    R.references s' row
    R.after s' row
  | .update k row =>
    match lookup R.key (R.rows s) k with
    | none => .ok s
    | some old => do
      R.before s (some old) (some row)
      R.check row
      passAll (R.unique row) ((R.rows s).filter fun q => decide (R.key q ≠ k))
      let s' := R.put s (modify R.key (R.rows s) k fun _ => row)
      (if R.key row = k then .ok () else R.referenced s' k)
      R.references s' row
      .ok s'
  | .delete k =>
    match lookup R.key (R.rows s) k with
    | none => .ok s
    | some old => do
      R.before s (some old) none
      let s' := R.put s ((R.rows s).filter fun q => decide (R.key q ≠ k))
      R.referenced s' k
      .ok s'

/-- What is true of a statement that succeeds. -/
inductive Rules.Allowed (R : Rules σ κ ρ ε) (s : σ) : Change κ ρ → σ → Prop
  | absent {c : Change κ ρ} {k : κ} (target : c.target = some k)
      (missing : lookup R.key (R.rows s) k = none) : Allowed R s c s
  | inserted {row : ρ} {s' : σ} (before : R.before s none (some row) = .ok ())
      (check : R.check row = .ok ()) (unique : ∀ q ∈ R.rows s, R.unique row q = .ok ())
      (references : R.references (R.put s (R.rows s ++ [row])) row = .ok ())
      (after : R.after (R.put s (R.rows s ++ [row])) row = .ok s') : Allowed R s (.insert row) s'
  | updated {k : κ} {row old : ρ} (found : lookup R.key (R.rows s) k = some old)
      (before : R.before s (some old) (some row) = .ok ()) (check : R.check row = .ok ())
      (unique : ∀ q ∈ R.rows s, R.key q ≠ k → R.unique row q = .ok ())
      (referenced : R.key row ≠ k →
        R.referenced (R.put s (modify R.key (R.rows s) k fun _ => row)) k = .ok ())
      (references :
        R.references (R.put s (modify R.key (R.rows s) k fun _ => row)) row = .ok ()) :
      Allowed R s (.update k row) (R.put s (modify R.key (R.rows s) k fun _ => row))
  | deleted {k : κ} {old : ρ} (found : lookup R.key (R.rows s) k = some old)
      (before : R.before s (some old) none = .ok ())
      (referenced :
        R.referenced (R.put s ((R.rows s).filter fun q => decide (R.key q ≠ k))) k = .ok ()) :
      Allowed R s (.delete k) (R.put s ((R.rows s).filter fun q => decide (R.key q ≠ k)))

/-- The table is read as it was put, and the triggers on an insertion leave it alone. -/
structure Rules.Lawful (R : Rules σ κ ρ ε) : Prop where
  rows_put : ∀ s rows, R.rows (R.put s rows) = rows
  rows_after : ∀ {s row s'}, R.after s row = .ok s' → R.rows s' = R.rows s

section
variable {R : Rules σ κ ρ ε} {s s' : σ} {c : Change κ ρ}

omit [DecidableEq κ] in
theorem bind_ok {α β : Type} {x : Except ε α} {f : α → Except ε β} {b : β} (h : x >>= f = .ok b) :
    ∃ a, x = .ok a ∧ f a = .ok b := by
  cases x with
  | error e => cases h
  | ok a => exact ⟨a, rfl, h⟩

theorem passAll_ok {check : ρ → Except ε Unit} {rows : List ρ} (h : passAll check rows = .ok ()) :
    ∀ row ∈ rows, check row = .ok () := by
  induction rows with
  | nil => exact fun _ hrow => absurd hrow List.not_mem_nil
  | cons row rows ih =>
    unfold passAll at h
    split at h
    · next hrow => exact List.forall_mem_cons.2 ⟨hrow, ih h⟩
    · cases h

/-- A statement that succeeds has passed every constraint. -/
theorem Rules.change_allowed (h : R.change s c = .ok s') : R.Allowed s c s' := by
  cases c with
  | insert row =>
    obtain ⟨_, hbefore, h⟩ := bind_ok h
    obtain ⟨_, hcheck, h⟩ := bind_ok h
    obtain ⟨_, hunique, h⟩ := bind_ok h
    obtain ⟨_, hreferences, h⟩ := bind_ok h
    exact .inserted hbefore hcheck (passAll_ok hunique) hreferences h
  | update k row =>
    simp only [Rules.change] at h
    split at h
    · next hmissing =>
      cases h
      exact .absent rfl hmissing
    · next old hfound =>
      obtain ⟨_, hbefore, h⟩ := bind_ok h
      obtain ⟨_, hcheck, h⟩ := bind_ok h
      obtain ⟨_, hunique, h⟩ := bind_ok h
      obtain ⟨_, hreferenced, h⟩ := bind_ok h
      obtain ⟨_, hreferences, h⟩ := bind_ok h
      cases h
      refine .updated hfound hbefore hcheck (fun q hq hne => ?_) (fun hne => ?_) hreferences
      · exact passAll_ok hunique q (List.mem_filter.2 ⟨hq, decide_eq_true hne⟩)
      · rwa [if_neg hne] at hreferenced
  | delete k =>
    simp only [Rules.change] at h
    split at h
    · next hmissing =>
      cases h
      exact .absent rfl hmissing
    · next old hfound =>
      obtain ⟨_, hbefore, h⟩ := bind_ok h
      obtain ⟨_, hreferenced, h⟩ := bind_ok h
      cases h
      exact .deleted hfound hbefore hreferenced

/-- A row that is there afterwards was there before, or it has passed the constraints. -/
theorem Rules.Lawful.forall_row (hR : R.Lawful) (h : R.Allowed s c s') {row : ρ} (hrow : row ∈ R.rows s') :
    row ∈ R.rows s ∨ R.check row = .ok () ∧ (∃ old, R.before s old (some row) = .ok ()) ∧
      ∃ rows, R.references (R.put s rows) row = .ok () := by
  cases h with
  | absent _ _ => exact .inl hrow
  | inserted hbefore hcheck _ hreferences hafter =>
    rw [hR.rows_after hafter, hR.rows_put] at hrow
    rcases List.mem_append.1 hrow with hold | hnew
    · exact .inl hold
    · rw [List.mem_singleton.1 hnew]
      exact .inr ⟨hcheck, ⟨_, hbefore⟩, _, hreferences⟩
  | updated _ hbefore hcheck _ _ hreferences =>
    rw [hR.rows_put] at hrow
    obtain ⟨q, hq, ⟨-, rfl⟩ | ⟨-, rfl⟩⟩ := mem_modify hrow
    · exact .inr ⟨hcheck, ⟨_, hbefore⟩, _, hreferences⟩
    · exact .inl hq
  | deleted _ _ _ =>
    rw [hR.rows_put] at hrow
    exact .inl (List.mem_filter.1 hrow).1

/-- Where no trigger runs on an insertion, a statement changes one table. -/
theorem Rules.only_put (hafter : ∀ s row s', R.after s row = .ok s' → s' = s)
    (hput : ∀ s, R.put s (R.rows s) = s) (h : R.Allowed s c s') : ∃ rows, s' = R.put s rows := by
  cases h with
  | absent _ _ => exact ⟨_, (hput s).symm⟩
  | inserted _ _ _ _ h => exact ⟨_, hafter _ _ _ h⟩
  | updated _ _ _ _ _ _ => exact ⟨_, rfl⟩
  | deleted _ _ _ => exact ⟨_, rfl⟩

/-- The unique indexes keep the rows apart. -/
theorem Rules.Lawful.pairwise (hR : R.Lawful) {P : ρ → ρ → Prop}
    (hunique : ∀ {row q}, R.unique row q = .ok () → P row q) (hsymm : ∀ {q row}, P q row → P row q)
    (hkey : ∀ {q row}, P q row → R.key q ≠ R.key row) (hs : (R.rows s).Pairwise P)
    (h : R.Allowed s c s') : (R.rows s').Pairwise P := by
  cases h with
  | absent _ _ => exact hs
  | inserted _ _ hnew _ hafter =>
    rw [hR.rows_after hafter, hR.rows_put]
    refine List.pairwise_append.2 ⟨hs, List.pairwise_singleton _ _, fun q hq row hrow => ?_⟩
    rw [List.mem_singleton.1 hrow]
    exact hsymm (hunique (hnew q hq))
  | @updated k row _ _ _ _ hnew _ _ =>
    rw [hR.rows_put]
    unfold modify
    rw [List.pairwise_map]
    refine hs.imp_of_mem fun {a b} ha hb hab => ?_
    by_cases hka : R.key a = k
    · have hkb : R.key b ≠ k := fun hkb => hkey hab (hka.trans hkb.symm)
      rw [if_pos hka, if_neg hkb]
      exact hunique (hnew b hb hkb)
    · rw [if_neg hka]
      split
      · exact hsymm (hunique (hnew a ha hka))
      · exact hab
  | deleted _ _ _ =>
    rw [hR.rows_put]
    exact hs.filter _

/-- A row that others refer to does not go. -/
theorem Rules.Lawful.key_kept (hR : R.Lawful) (h : R.Allowed s c s') {k : κ}
    (hk : k ∈ (R.rows s).map R.key) (hreferred : ∀ rows, R.referenced (R.put s rows) k ≠ .ok ()) :
    k ∈ (R.rows s').map R.key := by
  obtain ⟨q, hq, rfl⟩ := List.mem_map.1 hk
  cases h with
  | absent _ _ => exact hk
  | inserted _ _ _ _ hafter =>
    rw [hR.rows_after hafter, hR.rows_put]
    exact List.mem_map_of_mem (List.mem_append_left _ hq)
  | @updated k row _ _ _ _ _ hreferenced _ =>
    rw [hR.rows_put]
    by_cases hqk : R.key q = k
    · have hrow : R.key row = k := by
        by_contra hne
        exact hreferred _ (hqk ▸ hreferenced hne)
      rw [hqk, ← hrow]
      refine List.mem_map_of_mem (List.mem_map.2 ⟨q, hq, ?_⟩)
      rw [hrow, if_pos hqk]
    · exact List.mem_map_of_mem (List.mem_map.2 ⟨q, hq, if_neg hqk⟩)
  | @deleted k _ _ _ hreferenced =>
    rw [hR.rows_put]
    have hne : R.key q ≠ k := fun heq => hreferred _ (heq ▸ hreferenced)
    exact List.mem_map_of_mem (List.mem_filter.2 ⟨hq, decide_eq_true hne⟩)

/-- A table whose triggers let no row go is only appended to. -/
theorem Rules.Lawful.appends (hR : R.Lawful) (hbefore : ∀ s old new, R.before s (some old) new ≠ .ok ())
    (h : R.Allowed s c s') :
    R.rows s' = R.rows s ∨ ∃ row, c = .insert row ∧ R.rows s' = R.rows s ++ [row] := by
  cases h with
  | absent _ _ => exact .inl rfl
  | @inserted row _ _ _ _ _ hafter =>
    refine .inr ⟨row, rfl, ?_⟩
    rw [hR.rows_after hafter, hR.rows_put]
  | updated _ h _ _ _ _ => exact absurd h (hbefore _ _ _)
  | deleted _ h _ => exact absurd h (hbefore _ _ _)

end

end Relational
