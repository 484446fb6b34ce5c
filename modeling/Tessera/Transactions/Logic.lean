import Tessera.Transactions.Pool

/-!
# A program logic for sessions that interleave

Rely and guarantee, with row locks.  A session may count on the committed states keeping an
invariant and only growing, and on the rows it has locked staying as they are; in return it
writes a row only under that row's lock, and commits only what its terms allow.

* `Discipline` — what every session of the pool may count on and must keep to;
* `Terms` — what one session may commit, and in which circumstances it runs;
* `Rely` — how the committed state may change under a session between two statements;
* `wp` — the weakest precondition of a program, and its rules.
-/

namespace Transactions

variable {σ κ ω ι ε α β : Type}

/-- What the sessions of a pool may count on, and must keep to. -/
structure Discipline (σ κ ω : Type) where
  /-- Holds of every committed state. -/
  inv : σ → Prop
  /-- Relates every committed state to every later one. -/
  grows : σ → σ → Prop
  /-- What a lock keeps others from changing. -/
  same : κ → LockMode → σ → σ → Prop
  /-- Holds of every state as a session sees it. -/
  tidy : σ → Prop
  /-- The locks under which a row may be written. -/
  needs : ω → List (κ × LockMode)

/-- The statements that the terms of a session speak about. -/
inductive Statement (κ : Type) where
  | lock (key : κ) (mode : LockMode)
  | commit
  | other

/-- What kind of statement comes next. -/
def Program.statement : Program σ κ ω ι ε α → Statement κ
  | .lock key mode _ => .lock key mode
  | .commit _ => .commit
  | _ => .other

/-- The terms on which one session runs. -/
structure Terms (σ κ ω : Type) where
  /-- The writes it may commit in a given state. -/
  commits : σ → List ω → Prop
  /-- The draws it may make. -/
  draws : σ → ω → Prop
  /-- What is true whenever it waits for a lock. -/
  guard : Standing σ κ ω → κ × LockMode → σ → Prop
  /-- The circumstances under which it is started. -/
  starts : σ → Prop
  /-- The circumstances under which its statements run. -/
  admits : Standing σ κ ω → Statement κ → σ → Prop

/-- What may happen to the committed state while a session that holds these locks is between
two statements. -/
structure Rely (R : Discipline σ κ ω) (held : List (κ × LockMode)) (s s' : σ) : Prop where
  inv : R.inv s'
  grows : R.grows s s'
  same : ∀ h ∈ held, R.same h.1 h.2 s s'

/-- What may happen between two statements may happen in several steps. -/
structure Discipline.Regular (R : Discipline σ κ ω) : Prop where
  grows_refl : ∀ s, R.grows s s
  grows_trans : ∀ {s s' s''}, R.grows s s' → R.grows s' s'' → R.grows s s''
  same_refl : ∀ k m s, R.same k m s s
  same_trans : ∀ {k m s s' s''}, R.same k m s s' → R.same k m s' s'' → R.same k m s s''

/-- The laws that make a discipline sound for a pool. -/
structure Discipline.Lawful (D : Database σ ω ε) (R : Discipline σ κ ω) : Prop
    extends R.Regular where
  /-- A write keeps what a lock protects, if its own locks are compatible with it. -/
  same_apply : ∀ {k m s row},
    (∀ n ∈ R.needs row, n.1 = k → n.2.conflicts m = false) → R.same k m s (D.apply s row)
  /-- The same write keeps two states the same. -/
  same_congr : ∀ {k m s s'} (row : ω), R.same k m s s' →
    R.same k m (D.apply s row) (D.apply s' row)
  /-- A committed state is as tidy as what a session sees before it writes. -/
  tidy_inv : ∀ {s}, R.inv s → R.tidy s
  /-- Pending writes under locks stay tidy while others commit. -/
  tidy_stable : ∀ {held : List (κ × LockMode)} {rows : List ω} {s s' : σ},
    (∀ row ∈ rows, R.needs row ⊆ held) → R.inv s → Rely R held s s' →
    R.tidy (D.applyAll s rows) →
    R.tidy (D.applyAll s' rows)

/-- The terms keep the discipline: what they allow to be committed or drawn keeps the
invariant and only lets the state grow. -/
structure Terms.Lawful (D : Database σ ω ε) (R : Discipline σ κ ω) (T : Terms σ κ ω) :
    Prop where
  commits_inv : ∀ {s rows}, R.inv s → T.commits s rows → R.inv (D.applyAll s rows)
  commits_grows : ∀ {s rows}, R.inv s → T.commits s rows → R.grows s (D.applyAll s rows)
  draws_inv : ∀ {s row}, R.inv s → T.draws s row → R.inv (D.apply s row)
  draws_grows : ∀ {s row}, R.inv s → T.draws s row → R.grows s (D.apply s row)
  draws_free : ∀ {s row}, T.draws s row → R.needs row = []

/-! ## The weakest precondition -/

/-- What a program establishes when it finishes. -/
abbrev Post (σ κ ω ε α : Type) := Except ε α → Standing σ κ ω → σ → Prop

/-- The weakest precondition: from a committed state `s` and a standing `f`, whatever the
others do, the program keeps the discipline and its terms and ends in `Q`. -/
def wp (D : Database σ ω ε) (R : Discipline σ κ ω) (T : Terms σ κ ω) :
    Program σ κ ω ι ε α → Standing σ κ ω → σ → Post σ κ ω ε α → Prop
  | .done r, f, s, Q => Q r f s
  | .input next, f, s, Q => ∀ x, wp D R T (next x) f s Q
  | .query next, f, s, Q => ∀ s', Rely R f.held s s' →
      wp D R T (next (f.view D s')) (f.saw (f.view D s')) s' Q
  | .lock key mode next, f, s, Q => ∀ s', Rely R f.held s s' →
      T.guard f (key, mode) s' ∧
      (T.admits f (.lock key mode) s' →
        wp D R T (next (f.view D s')) (f.locked key mode (f.view D s')) s' Q)
  | .write row next, f, s, Q => R.needs row ⊆ f.held ∧
      ∀ s', Rely R f.held s s' → R.tidy (f.view D s') →
        R.tidy ((f.wrote row).view D s') ∧ wp D R T next (f.wrote row) s' Q
  | .instant row next, f, s, Q => ∀ s', Rely R f.held s s' → T.draws s' row ∧
      wp D R T (next (f.view D (D.apply s' row))) f (D.apply s' row) Q
  | .commit next, f, s, Q => ∀ s', Rely R f.held s s' → T.admits f .commit s' →
      (D.deferred (f.view D s') f.pending = .ok () →
        T.commits s' f.pending ∧ wp D R T (next (.ok ())) f.ended (f.view D s') Q) ∧
      (∀ e, D.deferred (f.view D s') f.pending = .error e →
        wp D R T (next (.error e)) f.ended s' Q)
  | .rollback next, f, s, Q => ∀ s', Rely R f.held s s' → wp D R T next f.ended s' Q

section
variable {D : Database σ ω ε} {R : Discipline σ κ ω} {T : Terms σ κ ω}
variable {f : Standing σ κ ω} {s : σ}

/-! ### The relation between two statements -/

/-- Nothing has happened between a statement and itself. -/
theorem Rely.refl (hR : R.Regular) (hinv : R.inv s) (held : List (κ × LockMode)) :
    Rely R held s s :=
  ⟨hinv, hR.grows_refl s, fun _ _ => hR.same_refl _ _ s⟩

/-- What happens between two statements may happen in two parts. -/
theorem Rely.trans (hR : R.Regular) {held : List (κ × LockMode)} {s' s'' : σ}
    (h : Rely R held s s') (h' : Rely R held s' s'') : Rely R held s s'' :=
  ⟨h'.inv, hR.grows_trans h.grows h'.grows,
    fun k hk => hR.same_trans (h.same k hk) (h'.same k hk)⟩

/-- A session that holds more may count on more. -/
theorem Rely.mono {held held' : List (κ × LockMode)} {s' : σ} (hheld : held ⊆ held')
    (h : Rely R held' s s') : Rely R held s s' :=
  ⟨h.inv, h.grows, fun k hk => h.same k (hheld hk)⟩

/-- Two steps, the second with more locks than the first. -/
theorem Rely.step (hR : R.Regular) {held held' : List (κ × LockMode)} {s' s'' : σ}
    (h : Rely R held s s') (hheld : held ⊆ held') (h' : Rely R held' s' s'') : Rely R held s s'' :=
  h.trans hR (h'.mono hheld)

/-- A postcondition that others cannot undo. -/
def Post.Stable (R : Discipline σ κ ω) (Q : Post σ κ ω ε α) : Prop :=
  ∀ r f s s', Rely R f.held s s' → Q r f s → Q r f s'

/-! ### Structural rules -/

/-- The precondition is stable when the postcondition is. -/
theorem wp_stable (hR : R.Regular) {Q : Post σ κ ω ε α} (hQ : Q.Stable R)
    {p : Program σ κ ω ι ε α} : ∀ {f s s'}, Rely R f.held s s' →
    wp D R T p f s Q → wp D R T p f s' Q := by
  induction p with
  | done r => exact fun h hp => hQ _ _ _ _ h hp
  | input next ih => exact fun h hp x => ih x h (hp x)
  | query next _ => exact fun h hp s'' h' => hp s'' (h.trans hR h')
  | lock key mode next _ => exact fun h hp s'' h' => hp s'' (h.trans hR h')
  | write row next _ => exact fun h hp => ⟨hp.1, fun s'' h' => hp.2 s'' (h.trans hR h')⟩
  | instant row next _ => exact fun h hp s'' h' => hp s'' (h.trans hR h')
  | commit next _ => exact fun h hp s'' h' => hp s'' (h.trans hR h')
  | rollback next _ => exact fun h hp s'' h' => hp s'' (h.trans hR h')

/-- A weaker postcondition has a weaker precondition. -/
theorem wp_mono {Q Q' : Post σ κ ω ε α} (hQ : ∀ r f s, Q r f s → Q' r f s)
    {p : Program σ κ ω ι ε α} : ∀ {f s}, wp D R T p f s Q → wp D R T p f s Q' := by
  induction p with
  | done r => exact fun hp => hQ _ _ _ hp
  | input next ih => exact fun hp x => ih x (hp x)
  | query next ih => exact fun hp s' h => ih _ (hp s' h)
  | lock key mode next ih =>
    exact fun hp s' h => ⟨(hp s' h).1, fun ha => ih _ ((hp s' h).2 ha)⟩
  | write row next ih => exact fun hp => ⟨hp.1, fun s' h ht => ⟨(hp.2 s' h ht).1, ih (hp.2 s' h ht).2⟩⟩
  | instant row next ih => exact fun hp s' h => ⟨(hp s' h).1, ih _ (hp s' h).2⟩
  | commit next ih =>
    exact fun hp s' h ha =>
      ⟨fun ho => ⟨((hp s' h ha).1 ho).1, ih _ ((hp s' h ha).1 ho).2⟩,
        fun e he => ih _ ((hp s' h ha).2 e he)⟩
  | rollback next ih => exact fun hp s' h => ih (hp s' h)

/-- The same program on terms that allow more and assume more. -/
theorem wp_terms {T' : Terms σ κ ω} {Q : Post σ κ ω ε α}
    (hcommits : ∀ s rows, T.commits s rows → T'.commits s rows)
    (hdraws : ∀ s row, T.draws s row → T'.draws s row)
    (hguard : ∀ f k s, T.guard f k s → T'.guard f k s)
    (hadmits : ∀ f st s, T'.admits f st s → T.admits f st s) {p : Program σ κ ω ι ε α} :
    ∀ {f s}, wp D R T p f s Q → wp D R T' p f s Q := by
  induction p with
  | done r => exact fun hp => hp
  | input next ih => exact fun hp x => ih x (hp x)
  | query next ih => exact fun hp s' h => ih _ (hp s' h)
  | lock key mode next ih =>
    exact fun hp s' h => ⟨hguard _ _ _ (hp s' h).1, fun ha => ih _ ((hp s' h).2 (hadmits _ _ _ ha))⟩
  | write row next ih => exact fun hp => ⟨hp.1, fun s' h ht => ⟨(hp.2 s' h ht).1, ih (hp.2 s' h ht).2⟩⟩
  | instant row next ih => exact fun hp s' h => ⟨hdraws _ _ (hp s' h).1, ih _ (hp s' h).2⟩
  | commit next ih =>
    intro f s hp s' h ha
    have hchoice := hp s' h (hadmits _ _ _ ha)
    exact ⟨fun ho => ⟨hcommits _ _ (hchoice.1 ho).1, ih _ (hchoice.1 ho).2⟩,
      fun e he => ih _ (hchoice.2 e he)⟩
  | rollback next ih => exact fun hp s' h => ih (hp s' h)

/-- A handler runs from wherever its program ends. -/
theorem wp_handle {Q : Post σ κ ω ε β} {k : Except ε α → Program σ κ ω ι ε β}
    {p : Program σ κ ω ι ε α} : ∀ {f s},
    wp D R T (p.handle k) f s Q ↔ wp D R T p f s fun r f s => wp D R T (k r) f s Q := by
  induction p with
  | done r => exact Iff.rfl
  | input next ih => exact forall_congr' fun x => ih x
  | query next ih => exact forall_congr' fun s' => imp_congr_right fun _ => ih _
  | lock key mode next ih =>
    exact forall_congr' fun s' => imp_congr_right fun _ =>
      and_congr_right fun _ => imp_congr_right fun _ => ih _
  | write row next ih =>
    exact and_congr_right fun _ => forall_congr' fun s' => imp_congr_right fun _ =>
      imp_congr_right fun _ => and_congr_right fun _ => ih
  | instant row next ih =>
    exact forall_congr' fun s' => imp_congr_right fun _ => and_congr_right fun _ => ih _
  | commit next ih =>
    exact forall_congr' fun s' => imp_congr_right fun _ => imp_congr_right fun _ =>
      and_congr (imp_congr_right fun _ => and_congr_right fun _ => ih _)
        (forall_congr' fun e => imp_congr_right fun _ => ih _)
  | rollback next ih => exact forall_congr' fun s' => imp_congr_right fun _ => ih

/-- What remains to be shown after a value; an error passes by. -/
def onValue (D : Database σ ω ε) (R : Discipline σ κ ω) (T : Terms σ κ ω)
    (k : α → Program σ κ ω ι ε β) (Q : Post σ κ ω ε β) : Post σ κ ω ε α
  | .ok a, f, s => wp D R T (k a) f s Q
  | .error e, f, s => Q (.error e) f s

/-- After a result the continuation runs. -/
theorem onValue_ok {k : α → Program σ κ ω ι ε β} {Q : Post σ κ ω ε β} {a : α}
    (h : wp D R T (k a) f s Q) : onValue D R T k Q (.ok a) f s := h

/-- The second program runs from wherever the first one returns. -/
theorem wp_bind {Q : Post σ κ ω ε β} {k : α → Program σ κ ω ι ε β}
    {p : Program σ κ ω ι ε α} :
    wp D R T (p >>= k) f s Q ↔ wp D R T p f s (onValue D R T k Q) := by
  change wp D R T (p.handle _) f s Q ↔ _
  rw [wp_handle]
  constructor
  · exact wp_mono fun r f s h => by cases r <;> exact h
  · exact wp_mono fun r f s h => by cases r <;> exact h

/-- A program whose value is changed afterwards. -/
theorem wp_map {g : α → β} {p : Program σ κ ω ι ε α} {Q : Post σ κ ω ε β}
    (h : wp D R T p f s fun r f s => Q (r.map g) f s) : wp D R T (g <$> p) f s Q := by
  refine wp_bind.2 (wp_mono (fun r f s hr => ?_) h)
  cases r with
  | ok a => exact hr
  | error e => exact hr

/-! ### Rules for the statements -/

variable {Q : Post σ κ ω ε α}

/-- A program that returns does so here. -/
theorem wp_pure {a : α} (h : Q (.ok a) f s) :
    wp D R T (pure a : Program σ κ ω ι ε α) f s Q := h

/-- A program that fails does so here. -/
theorem wp_throw {e : ε} (h : Q (.error e) f s) :
    wp D R T (throw e : Program σ κ ω ι ε α) f s Q := h

/-- A computation that may fail has the result that it has. -/
theorem wp_check {r : Except ε α} (h : Q r f s) :
    wp D R T (Program.check r : Program σ κ ω ι ε α) f s Q := h

/-- A condition holds or its error is thrown. -/
theorem wp_ensure {condition : Bool} {e : ε} {Q : Post σ κ ω ε Unit}
    (hok : condition = true → Q (.ok ()) f s)
    (herror : condition = false → Q (.error e) f s) :
    wp D R T (Program.ensure condition e : Program σ κ ω ι ε Unit) f s Q := by
  unfold Program.ensure
  cases condition with
  | true => exact hok rfl
  | false => exact herror rfl

/-- The clock and the new ids may be anything. -/
theorem wp_read {Q : Post σ κ ω ε ι} (h : ∀ x, Q (.ok x) f s) :
    wp D R T (Program.read : Program σ κ ω ι ε ι) f s Q := h

/-- A `SELECT` sees the state of its own moment, with the writes of the session. -/
theorem wp_select {view : σ → α}
    (h : ∀ s', Rely R f.held s s' → Q (.ok (view (f.view D s'))) (f.saw (f.view D s')) s') :
    wp D R T (Program.select view : Program σ κ ω ι ε α) f s Q := h

/-- A lock is taken where the guard allows it, and what is read then is read under it. -/
theorem wp_acquire {key : κ} {mode : LockMode} {view : σ → α}
    (hguard : ∀ s', Rely R f.held s s' → T.guard f (key, mode) s')
    (h : ∀ s', Rely R f.held s s' → T.admits f (.lock key mode) s' →
      Q (.ok (view (f.view D s'))) (f.locked key mode (f.view D s')) s') :
    wp D R T (Program.acquire key mode view : Program σ κ ω ι ε α) f s Q :=
  fun s' hs => ⟨hguard s' hs, h s' hs⟩

/-- A write needs its locks, and must leave the session with a tidy view. -/
theorem wp_put {row : ω} {Q : Post σ κ ω ε Unit} (hneeds : R.needs row ⊆ f.held)
    (htidy : ∀ s', Rely R f.held s s' → R.tidy (f.view D s') →
      R.tidy (D.apply (f.view D s') row))
    (h : ∀ s', Rely R f.held s s' → Q (.ok ()) (f.wrote row) s') :
    wp D R T (Program.put row : Program σ κ ω ι ε Unit) f s Q :=
  ⟨hneeds, fun s' hs ht => ⟨f.view_wrote D row s' ▸ htidy s' hs ht, h s' hs⟩⟩

/-- A draw takes effect at once, for everyone. -/
theorem wp_draw {row : ω} {view : σ → α}
    (hdraws : ∀ s', Rely R f.held s s' → T.draws s' row)
    (h : ∀ s', Rely R f.held s s' →
      Q (.ok (view (f.view D (D.apply s' row)))) f (D.apply s' row)) :
    wp D R T (Program.draw row view : Program σ κ ω ι ε α) f s Q :=
  fun s' hs => ⟨hdraws s' hs, h s' hs⟩

/-- `SELECT … FOR UPDATE` of at most one row: not visible, or locked and looked at again. -/
theorem wp_selectForLock {mode : LockMode} {key : α → κ} {view : σ → Option α}
    {Q : Post σ κ ω ε (Option α)}
    (hnone : ∀ s₁, Rely R f.held s s₁ → view (f.view D s₁) = none →
      Q (.ok none) (f.saw (f.view D s₁)) s₁)
    (hguard : ∀ s₁ row, Rely R f.held s s₁ → view (f.view D s₁) = some row →
      ∀ s₂, Rely R f.held s₁ s₂ →
        T.guard (f.saw (f.view D s₁)) (key row, mode) s₂)
    (hsome : ∀ s₁ row, Rely R f.held s s₁ → view (f.view D s₁) = some row →
      ∀ s₂, Rely R f.held s₁ s₂ →
        T.admits (f.saw (f.view D s₁)) (.lock (key row) mode) s₂ →
        Q (.ok (view (f.view D s₂)))
          ((f.saw (f.view D s₁)).locked (key row) mode (f.view D s₂)) s₂) :
    wp D R T (Program.selectForLock mode key view : Program σ κ ω ι ε (Option α)) f s Q := by
  unfold Program.selectForLock
  refine wp_bind.2 (wp_select fun s₁ h₁ => ?_)
  cases hrow : view (f.view D s₁) with
  | none => exact hnone s₁ h₁ hrow
  | some row =>
    exact wp_acquire (hguard s₁ row h₁ hrow) (hsome s₁ row h₁ hrow)

/-- The rule for a block repeated over a list, from an invariant on the part already done. -/
theorem wp_forEach {body : β → Program σ κ ω ι ε Unit} {Q : Post σ κ ω ε Unit}
    (I : List β → Standing σ κ ω → σ → Prop) (before : List β) {rest : List β} :
    ∀ {f : Standing σ κ ω} {s : σ}, I before f s →
    (∀ done a after, before ++ rest = done ++ a :: after → ∀ f s, I done f s →
      wp D R T (body a) f s fun r f s => match r with
        | .ok () => I (done ++ [a]) f s
        | .error e => Q (.error e) f s) →
    (∀ f s, I (before ++ rest) f s → Q (.ok ()) f s) →
    wp D R T (Program.forEach body rest) f s Q := by
  induction rest generalizing before with
  | nil => exact fun hI _ hend => hend _ _ (by simpa using hI)
  | cons a rest ih =>
    intro f s hI hstep hend
    refine wp_bind.2 (wp_mono ?_ (hstep before a rest rfl f s hI))
    intro r f s hr
    cases r with
    | error e => exact hr
    | ok _ =>
      have hassoc : before ++ [a] ++ rest = before ++ a :: rest := by simp
      refine ih (before ++ [a]) hr (fun done b after hsplit => ?_) (fun f s h => ?_)
      · exact hstep done b after (hassoc ▸ hsplit)
      · exact hend f s (hassoc ▸ h)

/-- A transaction commits what its block has written, or drops it. -/
theorem wp_transaction {body : Program σ κ ω ι ε α}
    (h : wp D R T body f s fun r f s => match r with
      | .ok a => ∀ s', Rely R f.held s s' → T.admits f .commit s' →
          (D.deferred (f.view D s') f.pending = .ok () →
            T.commits s' f.pending ∧ Q (.ok a) f.ended (f.view D s')) ∧
          (∀ e, D.deferred (f.view D s') f.pending = .error e → Q (.error e) f.ended s')
      | .error e => ∀ s', Rely R f.held s s' → Q (.error e) f.ended s') :
    wp D R T (Program.transaction body) f s Q := by
  unfold Program.transaction
  refine wp_handle.2 (wp_mono (fun r f s hr => ?_) h)
  cases r with
  | ok a => exact hr
  | error e => exact hr

end

end Transactions
