import Tessera.Transactions.Within

/-!
# A session that runs by itself

One client with nobody else at work: it executes its statements one after the other, and may
be stopped after any of them.  This is the setting for statements about sequences of calls.

* `alone` — the first statements of a program, as many as there are readings for;
* `sequential` — the discipline of a store that nobody else touches;
* `Trail` — the commits and draws that lead from one committed state to another;
* `wp_alone` — what a weakest precondition says about every stopping point;
* `alone_transaction` — a transaction that has not succeeded has changed nothing.
-/

namespace Transactions

variable {σ κ ω ι ε α : Type}

/-- Execute one statement for each reading: what is committed, what is left of the program,
and where the session stands.  A program that is left unfinished was stopped there, and its
pending writes are dropped with its connection. -/
def alone (D : Database σ ω ε) :
    List ι → Program σ κ ω ι ε α → Standing σ κ ω → σ →
      σ × Program σ κ ω ι ε α × Standing σ κ ω
  | [], p, f, s => (s, p, f)
  | x :: xs, p, f, s =>
    match p.turn D x s f with
    | none => (s, p, f)
    | some (s', p', f') => alone D xs p' f' s'

section
variable {β : Type} (D : Database σ ω ε) (x : ι) (xs : List ι) (f : Standing σ κ ω) (s : σ)

/-- A `SELECT` is the first turn of what it is bound to. -/
theorem alone_bind_select (view : σ → α) (k : α → Program σ κ ω ι ε β) :
    alone D (x :: xs) (Program.select view >>= k) f s =
      alone D xs (k (view (f.view D s))) (f.saw (f.view D s)) s :=
  rfl

/-- So is a read of the clock and a new id. -/
theorem alone_bind_read (k : ι → Program σ κ ω ι ε β) :
    alone D (x :: xs) (Program.read >>= k) f s = alone D xs (k x) f s :=
  rfl

end

/-- Nobody else changes anything, up to what `E` leaves out of account. -/
def sequential (E : σ → σ → Prop) (needs : ω → List (κ × LockMode)) : Discipline σ κ ω where
  inv _ := True
  grows := E
  same _ _ := E
  tidy _ := True
  needs := needs

section
variable {E : σ → σ → Prop} {needs : ω → List (κ × LockMode)}

/-- A client between whose turns the state moves by a preorder has a regular discipline. -/
theorem sequential_regular (hrefl : ∀ s, E s s)
    (htrans : ∀ {s s' s''}, E s s' → E s' s'' → E s s'') : (sequential E needs).Regular :=
  ⟨hrefl, htrans, fun _ _ => hrefl, htrans⟩

/-- The others do what the preorder allows, whatever is held. -/
theorem sequential_rely {s s' : σ} (h : E s s') (held : List (κ × LockMode)) :
    Rely (sequential E needs) held s s' :=
  ⟨trivial, h, fun _ _ => h⟩

end

/-- The commits and draws that lead from one committed state to another. -/
inductive Trail (D : Database σ ω ε) (T : Terms σ κ ω) : σ → σ → Prop
  | refl (s : σ) : Trail D T s s
  | commit {s s' : σ} {rows : List ω} : Trail D T s s' → T.commits s' rows →
      Trail D T s (D.applyAll s' rows)
  | draw {s s' : σ} {row : ω} : Trail D T s s' → T.draws s' row → Trail D T s (D.apply s' row)

/-- Two trails one after the other. -/
theorem Trail.trans {D : Database σ ω ε} {T : Terms σ κ ω} {s s' s'' : σ}
    (h : Trail D T s s') (h' : Trail D T s' s'') : Trail D T s s'' := by
  induction h' with
  | refl => exact h
  | commit _ hc ih => exact .commit ih hc
  | draw _ hd ih => exact .draw ih hd

/-- A property kept by every commit and every draw holds at the end of a trail. -/
theorem Trail.induct {D : Database σ ω ε} {T : Terms σ κ ω} {P : σ → Prop} {s s' : σ}
    (h : Trail D T s s') (hs : P s)
    (hcommit : ∀ {s rows}, P s → T.commits s rows → P (D.applyAll s rows))
    (hdraw : ∀ {s row}, P s → T.draws s row → P (D.apply s row)) : P s' := by
  induction h with
  | refl => exact hs
  | commit _ hc ih => exact hcommit ih hc
  | draw _ hd ih => exact hdraw ih hd

section
variable {D : Database σ ω ε} {E : σ → σ → Prop} {needs : ω → List (κ × LockMode)}
variable {T : Terms σ κ ω}

/-- One turn keeps the precondition of what is left, and what it commits is allowed. -/
theorem wp_turn (hE : ∀ s, E s s) (hadmits : ∀ f st s, T.admits f st s) {Q : Post σ κ ω ε α} {x : ι} {s : σ}
    {f : Standing σ κ ω} {p : Program σ κ ω ι ε α}
    {r : σ × Program σ κ ω ι ε α × Standing σ κ ω}
    (hp : wp D (sequential E needs) T p f s Q) (hr : p.turn D x s f = some r) :
    Trail D T s r.1 ∧ wp D (sequential E needs) T r.2.1 r.2.2 r.1 Q := by
  have hrely : Rely (sequential E needs) f.held s s := sequential_rely (hE s) f.held
  cases p with
  | done result => cases hr
  | input next => cases hr; exact ⟨.refl s, hp x⟩
  | query next => cases hr; exact ⟨.refl s, hp s hrely⟩
  | lock key mode next => cases hr; exact ⟨.refl s, (hp s hrely).2 (hadmits _ _ _)⟩
  | write row next => cases hr; exact ⟨.refl s, (hp.2 s hrely trivial).2⟩
  | instant row next =>
    cases hr
    exact ⟨.draw (.refl s) (hp s hrely).1, (hp s hrely).2⟩
  | commit next =>
    simp only [Program.turn] at hr
    have hchoice := hp s hrely (hadmits _ _ _)
    cases hd : D.deferred (f.view D s) f.pending with
    | ok u =>
      rw [hd] at hr
      cases hr
      exact ⟨.commit (.refl s) (hchoice.1 hd).1, (hchoice.1 hd).2⟩
    | error e =>
      rw [hd] at hr
      cases hr
      exact ⟨.refl s, hchoice.2 e hd⟩
  | rollback next => cases hr; exact ⟨.refl s, hp s hrely⟩

/-- Wherever a session that runs by itself is stopped, what it has committed is a trail of
its terms, and what it has left still meets its precondition. -/
theorem wp_alone (hE : ∀ s, E s s) (hadmits : ∀ f st s, T.admits f st s) {Q : Post σ κ ω ε α} {xs : List ι} :
    ∀ {s : σ} {f : Standing σ κ ω} {p : Program σ κ ω ι ε α},
    wp D (sequential E needs) T p f s Q →
    Trail D T s (alone D xs p f s).1 ∧
      wp D (sequential E needs) T (alone D xs p f s).2.1 (alone D xs p f s).2.2
        (alone D xs p f s).1 Q := by
  induction xs with
  | nil => exact fun hp => ⟨.refl _, hp⟩
  | cons x xs ih =>
    intro s f p hp
    unfold alone
    cases hr : p.turn D x s f with
    | none => exact ⟨.refl _, hp⟩
    | some r =>
      obtain ⟨htrail, hnext⟩ := wp_turn hE hadmits hp hr
      exact ⟨htrail.trans (ih hnext).1, (ih hnext).2⟩

/-- The postcondition of a session that was not stopped. -/
theorem wp_alone_result (hE : ∀ s, E s s) (hadmits : ∀ f st s, T.admits f st s) {Q : Post σ κ ω ε α}
    {xs : List ι} {s : σ} {f : Standing σ κ ω} {p : Program σ κ ω ι ε α}
    (hp : wp D (sequential E needs) T p f s Q) {r : Except ε α}
    (hr : (alone D xs p f s).2.1.result = some r) :
    Q r (alone D xs p f s).2.2 (alone D xs p f s).1 := by
  have hsafe : wp D (sequential E needs) T (alone D xs p f s).2.1 (alone D xs p f s).2.2
      (alone D xs p f s).1 Q := (wp_alone hE hadmits hp).2
  revert hr hsafe
  cases (alone D xs p f s).2.1 with
  | done r' => exact fun hr hsafe => Option.some.inj hr ▸ hsafe
  | _ => exact fun hr => absurd hr (by simp [Program.result])

end

/-! ## A transaction that is stopped -/

section
variable {D : Database σ ω ε} {P Q : ω → Prop} {s : σ} {f : Standing σ κ ω}

/-- A transaction that has not succeeded has left the store alone, but for its draws. -/
theorem alone_transaction {body : Program σ κ ω ι ε α} (h : body.Within P Q) :
    ∀ (xs : List ι) (f : Standing σ κ ω) (s : σ),
      (∃ draws, (∀ w ∈ draws, Q w) ∧
        (alone D xs (Program.transaction body) f s).1 = D.applyAll s draws) ∨
      ∃ a, (alone D xs (Program.transaction body) f s).2.1 = .done (.ok a) := by
  have hhalt : ∀ {p : Program σ κ ω ι ε α} {f : Standing σ κ ω} {s : σ},
      ∃ draws, (∀ w ∈ draws, Q w) ∧ (alone D [] p f s).1 = D.applyAll s draws :=
    fun {_ _ _} => ⟨[], by simp, rfl⟩
  induction body with
  | done r =>
    intro xs f s
    cases xs with
    | nil => exact .inl hhalt
    | cons x xs =>
      cases r with
      | error e => cases xs <;> exact .inl ⟨[], by simp, rfl⟩
      | ok a =>
        show (∃ draws, _ ∧ (alone D (x :: xs) (.commit _) f s).1 = _) ∨
          ∃ b, (alone D (x :: xs) (.commit _) f s).2.1 = _
        unfold alone Program.turn
        cases hd : D.deferred (f.view D s) f.pending with
        | ok u => cases xs <;> exact .inr ⟨a, rfl⟩
        | error e => cases xs <;> exact .inl ⟨[], by simp, rfl⟩
  | input next ih =>
    intro xs f s
    cases xs with
    | nil => exact .inl hhalt
    | cons x xs => exact ih x (h x) xs f s
  | query next ih =>
    intro xs f s
    cases xs with
    | nil => exact .inl hhalt
    | cons x xs => exact ih _ (h _) xs _ s
  | lock key mode next ih =>
    intro xs f s
    cases xs with
    | nil => exact .inl hhalt
    | cons x xs => exact ih _ (h _) xs _ s
  | write row next ih =>
    intro xs f s
    cases xs with
    | nil => exact .inl hhalt
    | cons x xs => exact ih h.2 xs _ s
  | instant row next ih =>
    intro xs f s
    cases xs with
    | nil => exact .inl hhalt
    | cons x xs =>
      rcases ih (f.view D (D.apply s row)) (h.2 _) xs f (D.apply s row) with
        ⟨draws, hdraws, hdb⟩ | hok
      · exact .inl ⟨row :: draws, List.forall_mem_cons.2 ⟨h.1, hdraws⟩, hdb⟩
      · exact .inr hok
  | commit next _ => exact absurd h id
  | rollback next _ => exact absurd h id

end

end Transactions
