import Tessera.Transactions.Logic

/-!
# A call that runs to its end by itself

One client with nobody else at work executes statement after statement until it has finished.
Programs are finite in depth, so it always does; where it ends follows from its readings alone.

* `Program.finish` — the result, the standing and the committed state at the end;
* `Program.Reads` — every reading is admissible in the state in which it is made;
* `ends`, `finish_of_ends` — the weakest precondition of such a run, and its rules;
* `World.Run.finish` — in a pool in which nobody else holds a lock, a session can run so.
-/

namespace Transactions

variable {σ κ ω ι ε α β Call : Type}

/-- The committed state after a commit, which the deferred checks may refuse. -/
def Standing.committed (D : Database σ ω ε) (f : Standing σ κ ω) (s : σ) : σ :=
  match D.deferred (f.view D s) f.pending with
  | .ok _ => f.view D s
  | .error _ => s

/-- Where a program ends; its `n`-th statement reads `xs n`. -/
def Program.finish (D : Database σ ω ε) :
    Program σ κ ω ι ε α → (ℕ → ι) → Standing σ κ ω → σ → Except ε α × Standing σ κ ω × σ
  | .done r, _, f, s => (r, f, s)
  | .input next, xs, f, s => (next (xs 0)).finish D (fun n => xs (n + 1)) f s
  | .query next, xs, f, s =>
    (next (f.view D s)).finish D (fun n => xs (n + 1)) (f.saw (f.view D s)) s
  | .lock key mode next, xs, f, s =>
    (next (f.view D s)).finish D (fun n => xs (n + 1)) (f.locked key mode (f.view D s)) s
  | .write row next, xs, f, s => next.finish D (fun n => xs (n + 1)) (f.wrote row) s
  | .instant row next, xs, f, s =>
    (next (f.view D (D.apply s row))).finish D (fun n => xs (n + 1)) f (D.apply s row)
  | .commit next, xs, f, s =>
    (next (D.deferred (f.view D s) f.pending)).finish D (fun n => xs (n + 1)) f.ended
      (f.committed D s)
  | .rollback next, xs, f, s => next.finish D (fun n => xs (n + 1)) f.ended s

/-- Every reading from outside is admissible in the state that the session then sees. -/
def Program.Reads (D : Database σ ω ε) (A : σ → ι → Prop) :
    Program σ κ ω ι ε α → (ℕ → ι) → Standing σ κ ω → σ → Prop
  | .done _, _, _, _ => True
  | .input next, xs, f, s =>
    A (f.view D s) (xs 0) ∧ (next (xs 0)).Reads D A (fun n => xs (n + 1)) f s
  | .query next, xs, f, s =>
    (next (f.view D s)).Reads D A (fun n => xs (n + 1)) (f.saw (f.view D s)) s
  | .lock key mode next, xs, f, s =>
    (next (f.view D s)).Reads D A (fun n => xs (n + 1)) (f.locked key mode (f.view D s)) s
  | .write row next, xs, f, s => next.Reads D A (fun n => xs (n + 1)) (f.wrote row) s
  | .instant row next, xs, f, s =>
    (next (f.view D (D.apply s row))).Reads D A (fun n => xs (n + 1)) f (D.apply s row)
  | .commit next, xs, f, s =>
    (next (D.deferred (f.view D s) f.pending)).Reads D A (fun n => xs (n + 1)) f.ended
      (f.committed D s)
  | .rollback next, xs, f, s => next.Reads D A (fun n => xs (n + 1)) f.ended s

instance Program.decidableReads (D : Database σ ω ε) (A : σ → ι → Prop)
    [hA : ∀ s x, Decidable (A s x)] : (p : Program σ κ ω ι ε α) → (xs : ℕ → ι) →
      (f : Standing σ κ ω) → (s : σ) → Decidable (p.Reads D A xs f s)
  | .done _, _, _, _ => .isTrue trivial
  | .input next, xs, f, s =>
    @instDecidableAnd _ _ (hA (f.view D s) (xs 0))
      (decidableReads D A (next (xs 0)) (fun n => xs (n + 1)) f s)
  | .query next, xs, f, s => decidableReads D A (next _) (fun n => xs (n + 1)) (f.saw _) s
  | .lock key mode next, xs, f, s =>
    decidableReads D A (next _) (fun n => xs (n + 1)) (f.locked key mode _) s
  | .write row next, xs, f, s => decidableReads D A next (fun n => xs (n + 1)) (f.wrote row) s
  | .instant row next, xs, f, s =>
    decidableReads D A (next _) (fun n => xs (n + 1)) f (D.apply s row)
  | .commit next, xs, f, s =>
    decidableReads D A (next _) (fun n => xs (n + 1)) f.ended (f.committed D s)
  | .rollback next, xs, f, s => decidableReads D A next (fun n => xs (n + 1)) f.ended s

/-- The weakest precondition of a run by itself, with admissible readings. -/
def ends (D : Database σ ω ε) (A : σ → ι → Prop) :
    Program σ κ ω ι ε α → Standing σ κ ω → σ → Post σ κ ω ε α → Prop
  | .done r, f, s, Q => Q r f s
  | .input next, f, s, Q => ∀ x, A (f.view D s) x → ends D A (next x) f s Q
  | .query next, f, s, Q => ends D A (next (f.view D s)) (f.saw (f.view D s)) s Q
  | .lock key mode next, f, s, Q =>
    ends D A (next (f.view D s)) (f.locked key mode (f.view D s)) s Q
  | .write row next, f, s, Q => ends D A next (f.wrote row) s Q
  | .instant row next, f, s, Q =>
    ends D A (next (f.view D (D.apply s row))) f (D.apply s row) Q
  | .commit next, f, s, Q =>
    (D.deferred (f.view D s) f.pending = .ok () →
      ends D A (next (.ok ())) f.ended (f.view D s) Q) ∧
    ∀ e, D.deferred (f.view D s) f.pending = .error e → ends D A (next (.error e)) f.ended s Q
  | .rollback next, f, s, Q => ends D A next f.ended s Q

section
variable {D : Database σ ω ε} {A : σ → ι → Prop} {f : Standing σ κ ω} {s : σ}

/-- What is established holds where the program ends. -/
theorem finish_of_ends {Q : Post σ κ ω ε α} {p : Program σ κ ω ι ε α} :
    ∀ {xs : ℕ → ι} {f : Standing σ κ ω} {s : σ}, ends D A p f s Q → p.Reads D A xs f s →
      Q (p.finish D xs f s).1 (p.finish D xs f s).2.1 (p.finish D xs f s).2.2 := by
  induction p with
  | done r => exact fun hp _ => hp
  | input next ih => exact fun hp hreads => ih _ (hp _ hreads.1) hreads.2
  | query next ih => exact fun hp hreads => ih _ hp hreads
  | lock key mode next ih => exact fun hp hreads => ih _ hp hreads
  | write row next ih => exact fun hp hreads => ih hp hreads
  | instant row next ih => exact fun hp hreads => ih _ hp hreads
  | commit next ih =>
    intro xs f s hp hreads
    unfold Program.Reads Standing.committed at hreads
    unfold Program.finish Standing.committed
    cases hd : D.deferred (f.view D s) f.pending with
    | ok u =>
      rw [hd] at hreads
      exact ih _ (hp.1 hd) hreads
    | error e =>
      rw [hd] at hreads
      exact ih _ (hp.2 e hd) hreads
  | rollback next ih => exact fun hp hreads => ih hp hreads

/-- Without a condition on the readings all are admissible. -/
theorem Program.Reads.of_forall (hA : ∀ s x, A s x) {p : Program σ κ ω ι ε α} :
    ∀ {xs : ℕ → ι} {f : Standing σ κ ω} {s : σ}, p.Reads D A xs f s := by
  induction p with
  | done r => exact trivial
  | input next ih => exact ⟨hA _ _, ih _⟩
  | query next ih => exact ih _
  | lock key mode next ih => exact ih _
  | write row next ih => exact ih
  | instant row next ih => exact ih _
  | commit next ih => exact ih _
  | rollback next ih => exact ih

/-! ## Structural rules -/

/-- A weaker postcondition is easier to reach. -/
theorem ends_mono {Q Q' : Post σ κ ω ε α} (hQ : ∀ r f s, Q r f s → Q' r f s)
    {p : Program σ κ ω ι ε α} : ∀ {f s}, ends D A p f s Q → ends D A p f s Q' := by
  induction p with
  | done r => exact fun hp => hQ _ _ _ hp
  | input next ih => exact fun hp x hx => ih x (hp x hx)
  | query next ih => exact fun hp => ih _ hp
  | lock key mode next ih => exact fun hp => ih _ hp
  | write row next ih => exact fun hp => ih hp
  | instant row next ih => exact fun hp => ih _ hp
  | commit next ih => exact fun hp => ⟨fun hd => ih _ (hp.1 hd), fun e hd => ih _ (hp.2 e hd)⟩
  | rollback next ih => exact fun hp => ih hp

/-- A handler runs from where its program ends. -/
theorem ends_handle {Q : Post σ κ ω ε β} {k : Except ε α → Program σ κ ω ι ε β}
    {p : Program σ κ ω ι ε α} : ∀ {f s},
    ends D A (p.handle k) f s Q ↔ ends D A p f s fun r f s => ends D A (k r) f s Q := by
  induction p with
  | done r => exact Iff.rfl
  | input next ih => exact forall_congr' fun x => imp_congr_right fun _ => ih x
  | query next ih => exact ih _
  | lock key mode next ih => exact ih _
  | write row next ih => exact ih
  | instant row next ih => exact ih _
  | commit next ih =>
    exact and_congr (imp_congr_right fun _ => ih _)
      (forall_congr' fun e => imp_congr_right fun _ => ih _)
  | rollback next ih => exact ih

/-- What remains to be shown after a value; an error passes by. -/
def thenEnds (D : Database σ ω ε) (A : σ → ι → Prop) (k : α → Program σ κ ω ι ε β)
    (Q : Post σ κ ω ε β) : Post σ κ ω ε α
  | .ok a, f, s => ends D A (k a) f s Q
  | .error e, f, s => Q (.error e) f s

/-- After a result the continuation runs. -/
theorem thenEnds_ok {k : α → Program σ κ ω ι ε β} {Q : Post σ κ ω ε β} {a : α}
    (h : ends D A (k a) f s Q) : thenEnds D A k Q (.ok a) f s := h

/-- The second program runs from where the first one returns. -/
theorem ends_bind {Q : Post σ κ ω ε β} {k : α → Program σ κ ω ι ε β}
    {p : Program σ κ ω ι ε α} :
    ends D A (p >>= k) f s Q ↔ ends D A p f s (thenEnds D A k Q) := by
  change ends D A (p.handle _) f s Q ↔ _
  rw [ends_handle]
  constructor
  · exact ends_mono fun r f s h => by cases r <;> exact h
  · exact ends_mono fun r f s h => by cases r <;> exact h

/-! ## Rules for the statements -/

variable {Q : Post σ κ ω ε α}

theorem ends_pure {a : α} (h : Q (.ok a) f s) :
    ends D A (pure a : Program σ κ ω ι ε α) f s Q := h

/-- A computation that may fail has the result that it has. -/
theorem ends_check {r : Except ε α} (h : Q r f s) :
    ends D A (Program.check r : Program σ κ ω ι ε α) f s Q := h

/-- A condition holds or its error is thrown. -/
theorem ends_ensure {condition : Bool} {e : ε} {Q : Post σ κ ω ε Unit}
    (hok : condition = true → Q (.ok ()) f s)
    (herror : condition = false → Q (.error e) f s) :
    ends D A (Program.ensure condition e : Program σ κ ω ι ε Unit) f s Q := by
  unfold Program.ensure
  cases condition with
  | true => exact hok rfl
  | false => exact herror rfl

/-- The clock and the new ids are as the assumption says. -/
theorem ends_read {Q : Post σ κ ω ε ι} (h : ∀ x, A (f.view D s) x → Q (.ok x) f s) :
    ends D A (Program.read : Program σ κ ω ι ε ι) f s Q := h

/-- A `SELECT` sees the committed state, with the writes of the session. -/
theorem ends_select {view : σ → α} (h : Q (.ok (view (f.view D s))) (f.saw (f.view D s)) s) :
    ends D A (Program.select view : Program σ κ ω ι ε α) f s Q := h

/-- A lock is free, as nobody else holds any. -/
theorem ends_acquire {key : κ} {mode : LockMode} {view : σ → α}
    (h : Q (.ok (view (f.view D s))) (f.locked key mode (f.view D s)) s) :
    ends D A (Program.acquire key mode view : Program σ κ ω ι ε α) f s Q := h

/-- A write is seen by the session from then on. -/
theorem ends_put {row : ω} {Q : Post σ κ ω ε Unit} (h : Q (.ok ()) (f.wrote row) s) :
    ends D A (Program.put row : Program σ κ ω ι ε Unit) f s Q := h

/-- A draw takes effect at once. -/
theorem ends_draw {row : ω} {view : σ → α}
    (h : Q (.ok (view (f.view D (D.apply s row)))) f (D.apply s row)) :
    ends D A (Program.draw row view : Program σ κ ω ι ε α) f s Q := h

/-- `SELECT … FOR UPDATE` of at most one row: nobody changes it before it is locked. -/
theorem ends_selectForLock {mode : LockMode} {key : α → κ} {view : σ → Option α}
    {Q : Post σ κ ω ε (Option α)}
    (hnone : view (f.view D s) = none → Q (.ok none) (f.saw (f.view D s)) s)
    (hsome : ∀ row, view (f.view D s) = some row →
      Q (.ok (some row)) ((f.saw (f.view D s)).locked (key row) mode (f.view D s)) s) :
    ends D A (Program.selectForLock mode key view : Program σ κ ω ι ε (Option α)) f s Q := by
  unfold Program.selectForLock
  refine ends_bind.2 (ends_select ?_)
  cases hrow : view (f.view D s) with
  | none => exact hnone hrow
  | some row =>
    have hQ := hsome row hrow
    rw [← hrow] at hQ
    exact hQ

/-- The rule for a block repeated over a list, from an invariant on the part already done. -/
theorem ends_forEach {body : β → Program σ κ ω ι ε Unit} {Q : Post σ κ ω ε Unit}
    (I : List β → Standing σ κ ω → σ → Prop) (before : List β) {rest : List β} :
    ∀ {f : Standing σ κ ω} {s : σ}, I before f s →
    (∀ done a after, before ++ rest = done ++ a :: after → ∀ f s, I done f s →
      ends D A (body a) f s fun r f s => match r with
        | .ok () => I (done ++ [a]) f s
        | .error e => Q (.error e) f s) →
    (∀ f s, I (before ++ rest) f s → Q (.ok ()) f s) →
    ends D A (Program.forEach body rest) f s Q := by
  induction rest generalizing before with
  | nil => exact fun hI _ hend => hend _ _ (by simpa using hI)
  | cons a rest ih =>
    intro f s hI hstep hend
    refine ends_bind.2 (ends_mono ?_ (hstep before a rest rfl f s hI))
    intro r f s hr
    cases r with
    | error e => exact hr
    | ok _ =>
      have hassoc : before ++ [a] ++ rest = before ++ a :: rest := by simp
      refine ih (before ++ [a]) hr (fun done b after hsplit => ?_) (fun f s h => ?_)
      · exact hstep done b after (hassoc ▸ hsplit)
      · exact hend f s (hassoc ▸ h)

/-- A transaction commits what its block has written, or drops it. -/
theorem ends_transaction {body : Program σ κ ω ι ε α}
    (h : ends D A body f s fun r f s => match r with
      | .ok a =>
        (D.deferred (f.view D s) f.pending = .ok () → Q (.ok a) f.ended (f.view D s)) ∧
          ∀ e, D.deferred (f.view D s) f.pending = .error e → Q (.error e) f.ended s
      | .error e => Q (.error e) f.ended s) :
    ends D A (Program.transaction body) f s Q := by
  unfold Program.transaction
  refine ends_handle.2 (ends_mono (fun r f s hr => ?_) h)
  cases r with
  | ok a => exact hr
  | error e => exact hr

end

/-! ## In a pool -/

section
variable [DecidableEq κ] {D : Database σ ω ε} {program : Call → Program σ κ ω ι ε α} {i : ℕ}
variable {call : Call} {w : World σ κ ω ι ε α Call}

/-- A statement of a session that no lock of another one stops. -/
theorem World.step_free {p : Program σ κ ω ι ε α} {f : Standing σ κ ω} {x : ι}
    (hi : w.sessions[i]? = some ⟨call, p, f⟩) (hfree : w.heldByOthers i = [])
    {r : σ × Program σ κ ω ι ε α × Standing σ κ ω} (hturn : p.turn D x w.db f = some r) :
    w.step D program (.run i x) =
      some { db := r.1, sessions := w.sessions.set i ⟨call, r.2.1, r.2.2⟩ } := by
  have hgrants : w.grants i p = true := by
    unfold World.grants World.compatible
    rw [hfree]
    cases p.wants <;> rfl
  unfold World.step
  simp only [hi, Option.bind_some, hgrants, if_true, hturn, Option.map_some]

/-- The run goes on from the world after one statement. -/
theorem World.Run.step_free {p : Program σ κ ω ι ε α} {f : Standing σ κ ω} {x : ι}
    (hi : w.sessions[i]? = some ⟨call, p, f⟩) (hfree : w.heldByOthers i = [])
    {s' : σ} {p' : Program σ κ ω ι ε α} {f' : Standing σ κ ω}
    (hturn : p.turn D x w.db f = some (s', p', f')) {db : σ} {last : Session σ κ ω ι ε α Call}
    (hrest : ∀ sessions : List (Session σ κ ω ι ε α Call), sessions[i]? = some ⟨call, p', f'⟩ →
      World.heldByOthers ⟨s', sessions⟩ i = [] →
      World.Run D program (fun _ _ => True) ⟨s', sessions⟩ ⟨db, sessions.set i last⟩) :
    World.Run D program (fun _ _ => True) w ⟨db, w.sessions.set i last⟩ := by
  have hlt : i < w.sessions.length := by
    by_contra hout
    rw [List.getElem?_eq_none (not_lt.1 hout)] at hi
    cases hi
  have hothers : World.heldByOthers ⟨s', w.sessions.set i ⟨call, p', f'⟩⟩ i = [] := by
    unfold World.heldByOthers at hfree ⊢
    rw [List.eraseIdx_set_eq]
    exact hfree
  have hnext := hrest (w.sessions.set i ⟨call, p', f'⟩) (List.getElem?_set_self hlt) hothers
  rw [List.set_set] at hnext
  exact (World.Run.tail (.refl w) trivial (World.step_free hi hfree hturn)).trans hnext

/-- In a pool in which nobody else holds a lock a session can run to its end. -/
theorem World.Run.finish {p : Program σ κ ω ι ε α} :
    ∀ {xs : ℕ → ι} {f : Standing σ κ ω} {w : World σ κ ω ι ε α Call},
      w.sessions[i]? = some ⟨call, p, f⟩ → w.heldByOthers i = [] →
      World.Run D program (fun _ _ => True) w
        ⟨(p.finish D xs f w.db).2.2, w.sessions.set i
          ⟨call, .done (p.finish D xs f w.db).1, (p.finish D xs f w.db).2.1⟩⟩ := by
  induction p with
  | done r =>
    intro xs f w hi hfree
    have hsame : w.sessions.set i ⟨call, .done r, f⟩ = w.sessions := by
      obtain ⟨hlt, hget⟩ := List.getElem?_eq_some_iff.1 hi
      rw [← hget]
      exact List.set_getElem_self hlt
    unfold Program.finish
    dsimp only
    rw [hsame]
    exact .refl w
  | input next ih =>
    intro xs f w hi hfree
    exact World.Run.step_free hi hfree (x := xs 0) rfl fun _ hi' hfree' =>
      ih _ hi' hfree'
  | query next ih =>
    intro xs f w hi hfree
    exact World.Run.step_free hi hfree (x := xs 0) rfl fun _ hi' hfree' =>
      ih _ hi' hfree'
  | lock key mode next ih =>
    intro xs f w hi hfree
    exact World.Run.step_free hi hfree (x := xs 0) rfl fun _ hi' hfree' =>
      ih _ hi' hfree'
  | write row next ih =>
    intro xs f w hi hfree
    exact World.Run.step_free hi hfree (x := xs 0) rfl fun _ hi' hfree' =>
      ih hi' hfree'
  | instant row next ih =>
    intro xs f w hi hfree
    exact World.Run.step_free hi hfree (x := xs 0) rfl fun _ hi' hfree' =>
      ih _ hi' hfree'
  | commit next ih =>
    intro xs f w hi hfree
    unfold Program.finish Standing.committed
    cases hd : D.deferred (f.view D w.db) f.pending with
    | ok u =>
      have hturn : (Program.commit next).turn D (xs 0) w.db f =
          some (f.view D w.db, next (.ok ()), f.ended) := by
        simp only [Program.turn, hd]
      exact World.Run.step_free hi hfree hturn fun _ hi' hfree' => ih _ hi' hfree'
    | error e =>
      have hturn : (Program.commit next).turn D (xs 0) w.db f =
          some (w.db, next (.error e), f.ended) := by
        simp only [Program.turn, hd]
      exact World.Run.step_free hi hfree hturn fun _ hi' hfree' => ih _ hi' hfree'
  | rollback next ih =>
    intro xs f w hi hfree
    exact World.Run.step_free hi hfree (x := xs 0) rfl fun _ hi' hfree' =>
      ih hi' hfree'

end

end Transactions
