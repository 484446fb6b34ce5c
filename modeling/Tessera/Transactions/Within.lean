import Tessera.Transactions.Layers
import Tessera.Transactions.Writes

/-!
# Parts of a transaction

Most of what happens inside a transaction matters to a second layer only through the kind of
row it writes.  Such a part leaves the session where it was, with more rows pending, more rows
locked and more rows read.

* `Program.Within` — the writes and draws of a part, read off its tree;
* `Onward` — where a session stands after a part;
* `Lax`, `wp_within` — the rule, for terms that only look at what is committed.
-/

namespace Transactions

variable {σ κ ω ι ε α β : Type}

namespace Program

/-- A part of a transaction: it does not end it, every write satisfies `P` and every draw
`Q`. -/
def Within (P Q : ω → Prop) : Program σ κ ω ι ε α → Prop
  | .done _ => True
  | .input next => ∀ x, (next x).Within P Q
  | .query next => ∀ s, (next s).Within P Q
  | .lock _ _ next => ∀ s, (next s).Within P Q
  | .write row next => P row ∧ next.Within P Q
  | .instant row next => Q row ∧ ∀ s, (next s).Within P Q
  | .commit _ | .rollback _ => False

namespace Within
variable {P P' Q : ω → Prop} {held : List (κ × LockMode)}

/-- Rows of one kind are of any kind that includes it. -/
theorem mono {p : Program σ κ ω ι ε α} (hP : ∀ w, P w → P' w) (h : p.Within P Q) :
    p.Within P' Q := by
  induction p with
  | done r => trivial
  | input next ih => exact fun x => ih x (h x)
  | query next ih => exact fun s => ih s (h s)
  | lock key mode next ih => exact fun s => ih s (h s)
  | write row next ih => exact ⟨hP row h.1, ih h.2⟩
  | instant row next ih => exact ⟨h.1, fun s => ih s (h.2 s)⟩
  | commit next _ => exact h
  | rollback next _ => exact h

/-- A handler and what it handles. -/
theorem handle {p : Program σ κ ω ι ε α} {k : Except ε α → Program σ κ ω ι ε β}
    (h : p.Within P Q) (hk : ∀ r, (k r).Within P Q) : (p.handle k).Within P Q := by
  induction p with
  | done r => exact hk r
  | input next ih => exact fun x => ih x (h x)
  | query next ih => exact fun s => ih s (h s)
  | lock key mode next ih => exact fun s => ih s (h s)
  | write row next ih => exact ⟨h.1, ih h.2⟩
  | instant row next ih => exact ⟨h.1, fun s => ih s (h.2 s)⟩
  | commit next _ => exact absurd h id
  | rollback next _ => exact absurd h id

/-- Two programs one after the other. -/
theorem bind {p : Program σ κ ω ι ε α} {k : α → Program σ κ ω ι ε β} (h : p.Within P Q)
    (hk : ∀ a, (k a).Within P Q) : (p >>= k).Within P Q := by
  refine handle h fun r => ?_
  cases r with
  | ok a => exact hk a
  | error e => trivial

theorem ensure {condition : Bool} {e : ε} :
    (Program.ensure condition e : Program σ κ ω ι ε Unit).Within P Q := by
  unfold Program.ensure
  split <;> trivial

theorem check {r : Except ε α} : (Program.check r : Program σ κ ω ι ε α).Within P Q :=
  trivial

theorem read : (Program.read : Program σ κ ω ι ε ι).Within P Q :=
  fun _ => trivial

theorem select {view : σ → α} : (Program.select view : Program σ κ ω ι ε α).Within P Q :=
  fun _ => trivial

theorem acquire {key : κ} {mode : LockMode} {view : σ → α} :
    (Program.acquire key mode view : Program σ κ ω ι ε α).Within P Q :=
  fun _ => trivial

/-- A write of the kind. -/
theorem put {row : ω} (hP : P row) :
    (Program.put row : Program σ κ ω ι ε Unit).Within P Q :=
  ⟨hP, trivial⟩

/-- A draw of the kind. -/
theorem draw {row : ω} {view : σ → α} (hQ : Q row) :
    (Program.draw row view : Program σ κ ω ι ε α).Within P Q :=
  ⟨hQ, fun _ => trivial⟩

/-- `SELECT … FOR UPDATE` writes nothing. -/
theorem selectForLock {mode : LockMode} {key : α → κ} {view : σ → Option α} :
    (Program.selectForLock mode key view : Program σ κ ω ι ε (Option α)).Within P Q := by
  refine bind select fun found => ?_
  cases found with
  | none => trivial
  | some row => exact acquire

/-- Locking the rows one by one writes nothing. -/
theorem lockEach {key : α → κ} {again : α → σ → Option α} {rows : List α} :
    (Program.lockEach key again rows : Program σ κ ω ι ε (List α)).Within P Q := by
  induction rows with
  | nil => trivial
  | cons row rows ih => exact bind acquire fun _ => bind ih fun _ => trivial

/-- A loop writes what its body writes. -/
theorem forEach {body : α → Program σ κ ω ι ε Unit} {rows : List α}
    (h : ∀ a ∈ rows, (body a).Within P Q) : (Program.forEach body rows).Within P Q := by
  induction rows with
  | nil => trivial
  | cons a rows ih =>
    obtain ⟨ha, hrest⟩ := List.forall_mem_cons.1 h
    exact bind ha fun _ => ih hrest

/-- A transaction made of one part. -/
theorem transaction {body : Program σ κ ω ι ε α} (h : body.Within P Q) :
    (Program.transaction body).Writes (fun _ => []) P Q held := by
  have hwrites : ∀ {held : List (κ × LockMode)}, body.Writes (fun _ => []) P Q held := by
    induction body with
    | done r => exact fun {_} => trivial
    | input next ih => exact fun x => ih x (h x)
    | query next ih => exact fun s => ih s (h s)
    | lock key mode next ih => exact fun s => ih s (h s)
    | write row next ih => exact ⟨h.1, List.nil_subset _, ih h.2⟩
    | instant row next ih => exact ⟨h.1, fun s => ih s (h.2 s)⟩
    | commit next _ => exact absurd h id
    | rollback next _ => exact absurd h id
  exact Writes.transaction hwrites

end Within

section
variable {needs : ω → List (κ × LockMode)} {P P' Q : ω → Prop} {held : List (κ × LockMode)}

theorem Writes.done {r : Except ε α} : (Program.done r : Program σ κ ω ι ε α).Writes needs P Q held :=
  trivial

theorem Writes.select {view : σ → α} :
    (Program.select view : Program σ κ ω ι ε α).Writes needs P Q held :=
  fun _ => trivial

/-- Writes of a kind that covers another. -/
theorem Writes.imp (hP : ∀ w, P w → P' w)
    {p : Program σ κ ω ι ε α} : ∀ {held : List (κ × LockMode)}, p.Writes needs P Q held →
    p.Writes needs P' Q held := by
  induction p with
  | done r => exact fun h => h
  | input next ih => exact fun h x => ih x (h x)
  | query next ih => exact fun h s => ih s (h s)
  | lock key mode next ih => exact fun h s => ih s (h s)
  | write row next ih => exact fun h => ⟨hP row h.1, h.2.1, ih h.2.2⟩
  | instant row next ih => exact fun h => ⟨h.1, fun s => ih s (h.2 s)⟩
  | commit next ih => exact fun h r => ih r (h r)
  | rollback next ih => exact fun h => ih h

end

end Program

/-! ## Rows of one kind -/

/-- What a list of writes does to one column of the store depends only on those that matter
to it. -/
theorem Database.applyAll_filter (D : Database σ ω ε) (column : σ → β) {relevant : ω → Bool}
    (hskip : ∀ s w, relevant w = false → column (D.apply s w) = column s)
    (hcongr : ∀ {s s'} w, column s = column s' →
      column (D.apply s w) = column (D.apply s' w)) (rows : List ω) :
    ∀ {s s' : σ}, column s = column s' →
      column (D.applyAll s rows) = column (D.applyAll s' (rows.filter relevant)) := by
  induction rows with
  | nil => exact fun h => h
  | cons w rows ih =>
    intro s s' h
    rw [D.applyAll_cons]
    cases hw : relevant w with
    | true =>
      rw [List.filter_cons_of_pos hw, D.applyAll_cons]
      exact ih (hcongr w h)
    | false =>
      rw [List.filter_cons_of_neg (by simp [hw])]
      exact ih ((hskip s w hw).trans h)

/-! ## Where a session stands after a part -/

/-- A later point of a transaction; the rows written since satisfy `P`. -/
structure Onward (R : Discipline σ κ ω) (P : ω → Prop) (f : Standing σ κ ω) (s : σ)
    (f' : Standing σ κ ω) (s' : σ) : Prop extends Later R f s f' s' where
  pending : ∃ rows, f'.pending = f.pending ++ rows ∧ ∀ w ∈ rows, P w
  log : f.log <+: f'.log

/-- Terms that only look at what is committed. -/
structure Lax (D : Database σ ω ε) (R : Discipline σ κ ω) (T : Terms σ κ ω) (Q : ω → Prop) :
    Prop where
  regular : R.Regular
  guard : ∀ f k s, T.guard f k s
  needs : ∀ w, R.needs w = []
  tidy : ∀ s, R.tidy s
  draws : ∀ held {s row}, R.inv s → Q row → T.draws s row ∧ Rely R held s (D.apply s row)

section
variable {D : Database σ ω ε} {R : Discipline σ κ ω} {T : Terms σ κ ω} {P Q : ω → Prop}
variable {f f' f'' : Standing σ κ ω} {s s' s'' : σ}

namespace Onward

/-- A session stands where it stood when it has done nothing. -/
theorem refl (hR : R.Regular) (hs : R.inv s) : Onward R P f s f s :=
  ⟨.refl hR hs, ⟨[], by simp⟩, List.prefix_refl _⟩

/-- Two parts one after the other. -/
theorem trans (h : Onward R P f s f' s') (hR : R.Regular) (h' : Onward R P f' s' f'' s'') :
    Onward R P f s f'' s'' := by
  obtain ⟨rows, hrows, hP⟩ := h.pending
  obtain ⟨rows', hrows', hP'⟩ := h'.pending
  refine ⟨h.toLater.trans hR h'.toLater, ⟨rows ++ rows', ?_, fun w hw => ?_⟩, h.log.trans h'.log⟩
  · rw [hrows', hrows, List.append_assoc]
  · rcases List.mem_append.1 hw with hw | hw
    · exact hP w hw
    · exact hP' w hw

/-- The others have moved on. -/
theorem wait (h : Onward R P f s f' s') (hR : R.Regular) (hr : Rely R f'.held s' s'') :
    Onward R P f s f' s'' :=
  { h with toLater := h.toLater.wait hR hr }

/-- Rows of one kind are of any kind that includes it. -/
theorem mono {P' : ω → Prop} (h : Onward R P f s f' s') (hP : ∀ w, P w → P' w) :
    Onward R P' f s f' s' := by
  obtain ⟨rows, hrows, hall⟩ := h.pending
  exact ⟨h.toLater, ⟨rows, hrows, fun w hw => hP w (hall w hw)⟩, h.log⟩

/-- Nothing has been written. -/
theorem still (h : Onward R (fun _ : ω => False) f s f' s') : f'.pending = f.pending := by
  obtain ⟨rows, hrows, hnone⟩ := h.pending
  rw [hrows, List.eq_nil_iff_forall_not_mem.2 fun w hw => hnone w hw, List.append_nil]

end Onward

/-- A part of a transaction on lax terms. -/
theorem wp_within (hL : Lax D R T Q) {p : Program σ κ ω ι ε α} :
    ∀ {f s}, R.inv s → p.Within P Q → wp D R T p f s fun _ f' s' => Onward R P f s f' s' := by
  have hR := hL.regular
  induction p with
  | done r => exact fun hs _ => .refl hR hs
  | input next ih => exact fun hs h x => ih x hs (h x)
  | query next ih =>
    intro f s hs h s' hs'
    refine wp_mono (fun r f'' s'' h'' => ?_) (ih _ hs'.inv (h _))
    exact ⟨⟨hs'.trans hR h''.rely, h''.kept⟩, h''.pending,
      (List.prefix_append _ _).trans h''.log⟩
  | lock key mode next ih =>
    intro f s hs h s' hs'
    refine ⟨hL.guard _ _ _, fun _ => wp_mono (fun r f'' s'' h'' => ?_) (ih _ hs'.inv (h _))⟩
    have hheld : f.held ⊆ f''.held := List.Subset.trans (List.subset_cons_self _ _) h''.kept
    exact ⟨⟨hs'.step hR (List.subset_cons_self _ _) h''.rely, hheld⟩, h''.pending,
      (List.prefix_append _ _).trans h''.log⟩
  | write row next ih =>
    intro f s hs h
    refine ⟨by rw [hL.needs]; exact List.nil_subset _, fun s' hs' _ => ⟨hL.tidy _, ?_⟩⟩
    refine wp_mono (fun r f'' s'' h'' => ?_) (ih hs'.inv h.2)
    obtain ⟨rows, hrows, hP⟩ := h''.pending
    refine ⟨⟨hs'.trans hR h''.rely, h''.kept⟩, ⟨row :: rows, ?_, ?_⟩, h''.log⟩
    · rw [hrows]
      exact List.append_assoc _ _ _
    · exact List.forall_mem_cons.2 ⟨h.1, hP⟩
  | instant row next ih =>
    intro f s hs h s' hs'
    obtain ⟨hdraws, hrely⟩ := hL.draws f.held hs'.inv h.1
    refine ⟨hdraws, wp_mono (fun r f'' s'' h'' => ?_) (ih _ hrely.inv (h.2 _))⟩
    exact ⟨⟨(hs'.trans hR hrely).trans hR h''.rely, h''.kept⟩, h''.pending, h''.log⟩
  | commit next _ => exact fun _ h => absurd h id
  | rollback next _ => exact fun _ h => absurd h id

end

end Transactions
